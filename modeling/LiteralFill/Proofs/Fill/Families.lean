import LiteralFill.Proofs.Fill.Imports
import LiteralFill.Proofs.Fill.Lockstep
import Mathlib.Data.List.Sort

/-!
Types of the same form in several settings, in which some names, and the texts of function and interface types, may
differ. Their zero values are of the same form as well and ask for the same imports. They are the same if the names
and the texts that stand in them are.
-/

namespace LiteralFill

variable {ι : Type} {N : (ι → TypeName) → Prop} {X : (ι → String) → Prop}

/-! ## Types -/

/-- Types of the same form, with names and texts that belong together. -/
inductive TypesOf (N : (ι → TypeName) → Prop) (X : (ι → String) → Prop) : (ι → Ty) → Prop
  | primitive (p : Primitive) : TypesOf N X fun _ => .primitive p
  | param (name : String) : TypesOf N X fun _ => .param name
  | func {text : ι → String} (h : X text) : TypesOf N X fun i => .func (text i)
  | interface {text : ι → String} (h : X text) : TypesOf N X fun i => .interface (text i)
  | unseen {n : ι → TypeName} (h : N n) : TypesOf N X fun i => .unseen (n i)
  | pointer {t : ι → Ty} (h : TypesOf N X t) : TypesOf N X fun i => .pointer (t i)
  | slice {t : ι → Ty} (h : TypesOf N X t) : TypesOf N X fun i => .slice (t i)
  | array (l : Length) {t : ι → Ty} (h : TypesOf N X t) : TypesOf N X fun i => .array l (t i)
  | map {k v : ι → Ty} (hk : TypesOf N X k) (hv : TypesOf N X v) : TypesOf N X fun i => .map (k i) (v i)
  | chan (d : Direction) {t : ι → Ty} (h : TypesOf N X t) : TypesOf N X fun i => .chan d (t i)
  | named (n : TypeName) {args : List (ι → Ty)} {t : ι → Ty} (hargs : ∀ a ∈ args, TypesOf N X a)
    (h : TypesOf N X t) : TypesOf N X fun i => .named n (args.map (· i)) (t i)
  | spelled {n : ι → TypeName} (h : N n) {args : List (ι → Ty)} (hargs : ∀ a ∈ args, TypesOf N X a) :
    TypesOf N X fun i => .named (n i) (args.map (· i)) (.unseen (n i))
  | struct {fields : List (Field (ι → Ty))} (h : ∀ f ∈ fields, TypesOf N X f.type) :
    TypesOf N X fun i => .struct (fields.map (Field.map (· i)))

/-- Names and texts that belong together: the same ones do, and those of one type have one path and one name. -/
structure NamesTogether (N : (ι → TypeName) → Prop) (X : (ι → String) → Prop) : Prop where
  same (n : TypeName) : N fun _ => n
  text (t : String) : X fun _ => t
  key {n : ι → TypeName} (h : N n) : Same fun i => ((n i).path, (n i).name)

namespace NamesTogether

variable (hN : NamesTogether N X)
include hN

theorem path {n : ι → TypeName} (h : N n) (i j : ι) : (n i).path = (n j).path := by
  obtain ⟨key, hkey⟩ := hN.key h
  exact congrArg Prod.fst ((congrFun hkey i).trans (congrFun hkey j).symm)

theorem qualified {n : ι → TypeName} (h : N n) : ∃ text, ∀ i, (n i).qualified = text := by
  obtain ⟨key, hkey⟩ := hN.key h
  refine ⟨(TypeName.mk key.1 "" key.2).qualified, fun i => ?_⟩
  obtain ⟨hpath, hname⟩ := Prod.mk.inj (congrFun hkey i)
  rw [TypeName.qualified, TypeName.isPredeclared, hpath, hname]
  rfl

theorem formsTogether : FormsTogether (TypesOf N X) where
  plain h := by
    cases h with
    | primitive p => exact .primitive p
    | interface text => exact .interface (hN.text text)
    | func text => exact .func (hN.text text)
    | param name => exact .param name
    | unseen n => exact .unseen (hN.same n)
    | error => exact @TypesOf.named _ _ _ (.predeclared "error") [] _ nofun (.interface (hN.text _))
  pointer := .pointer
  slice := .slice
  array l _ := .array l
  map := .map
  chan d _ := .chan d
  spelled n _ := .spelled (hN.same n)
  struct := .struct

end NamesTogether

/-- Types of the same form stand for struct types together, with fields of the same form. -/
theorem TypesOf.structFields {t : ι → Ty} (h : TypesOf N X t) : (∀ i, (t i).structFields = none) ∨
    ∃ fields : List (Field (ι → Ty)), (∀ f ∈ fields, TypesOf N X f.type) ∧
      ∀ i, (t i).structFields = some (fields.map (Field.map (· i))) := by
  induction h with
  | named _ _ _ _ ih => exact ih
  | struct hfields _ => exact .inr ⟨_, hfields, fun _ => rfl⟩
  | _ => exact .inl fun _ => rfl

/-! ## Texts in pieces -/

/-- Pieces of the same kind, with names and texts that belong together. -/
inductive PiecesOf (N : (ι → TypeName) → Prop) (X : (ι → String) → Prop) : (ι → Piece) → Prop
  | text (t : String) : PiecesOf N X fun _ => .text t
  | form {t : ι → String} (h : X t) : PiecesOf N X fun i => .form (t i)
  | name {n : ι → TypeName} (h : N n) : PiecesOf N X fun i => .name (n i)

/-- Texts in as many pieces of the same kind. -/
inductive WordingsOf (N : (ι → TypeName) → Prop) (X : (ι → String) → Prop) : (ι → Wording) → Prop
  | nil : WordingsOf N X fun _ => []
  | cons {p : ι → Piece} {w : ι → Wording} (hp : PiecesOf N X p) (h : WordingsOf N X w) :
    WordingsOf N X fun i => p i :: w i

/-- Names that belong together, one for one. -/
def NamesOf (N : (ι → TypeName) → Prop) (names : ι → List TypeName) : Prop :=
  ∃ l : List (ι → TypeName), (∀ n ∈ l, N n) ∧ ∀ i, names i = l.map (· i)

namespace NamesOf

theorem nil : NamesOf N fun _ => [] := ⟨[], by simp, fun _ => rfl⟩

theorem append {l m : ι → List TypeName} (hl : NamesOf N l) (hm : NamesOf N m) : NamesOf N fun i => l i ++ m i := by
  obtain ⟨l', hl', hl⟩ := hl
  obtain ⟨m', hm', hm⟩ := hm
  refine ⟨l' ++ m', fun n hn => (List.mem_append.mp hn).elim (hl' n) (hm' n), fun i => ?_⟩
  rw [List.map_append, ← hl, ← hm]

theorem cons {n : ι → TypeName} {l : ι → List TypeName} (hn : N n) (hl : NamesOf N l) :
    NamesOf N fun i => n i :: l i :=
  append (l := fun i => [n i]) ⟨[n], by simpa, fun _ => rfl⟩ hl

/-- The paths of names that belong together are the same. -/
theorem pathAmong {names : ι → List TypeName} (hN : NamesTogether N X) (h : NamesOf N names) (package p : String)
    (i o : ι) : PathAmong package (names i) p ↔ PathAmong package (names o) p := by
  obtain ⟨l, hl, hnames⟩ := h
  have hkey (i o : ι) : PathAmong package (names i) p → PathAmong package (names o) p := by
    rintro ⟨_, hn, hforeign, hpath⟩
    rw [hnames] at hn
    obtain ⟨n, hmem, rfl⟩ := List.mem_map.mp hn
    have hsame := hN.path (hl n hmem) i o
    refine ⟨n o, by rw [hnames]; exact List.mem_map_of_mem hmem, ?_, hsame ▸ hpath⟩
    rwa [TypeName.isForeignTo, TypeName.isPredeclared, hsame] at hforeign
  exact ⟨hkey i o, hkey o i⟩

end NamesOf

/-- Names, and texts of function and interface types, that are written alike wherever others belong together with
them. -/
structure WrittenAlike (N : (ι → TypeName) → Prop) (X : (ι → String) → Prop) (q : Qualifier) (o : ι)
    (names : List TypeName) (forms : List String) : Prop where
  names {n : ι → TypeName} (h : N n) : n o ∈ names → ∀ i, showName q (n i) = showName q (n o)
  forms {x : ι → String} (h : X x) : x o ∈ forms → ∀ i, x i = x o

namespace WrittenAlike

variable {q : Qualifier} {o : ι} {l l' : List TypeName} {m m' : List String}

theorem left (h : WrittenAlike N X q o (l ++ l') (m ++ m')) : WrittenAlike N X q o l m :=
  ⟨fun hn hmem => h.names hn (List.mem_append_left _ hmem), fun hx hmem => h.forms hx (List.mem_append_left _ hmem)⟩

theorem right (h : WrittenAlike N X q o (l ++ l') (m ++ m')) : WrittenAlike N X q o l' m' :=
  ⟨fun hn hmem => h.names hn (List.mem_append_right _ hmem), fun hx hmem => h.forms hx (List.mem_append_right _ hmem)⟩

end WrittenAlike

namespace WordingsOf

theorem text (t : String) : WordingsOf N X fun _ => [.text t] := .cons (.text t) .nil

theorem append {v w : ι → Wording} (hv : WordingsOf N X v) (hw : WordingsOf N X w) :
    WordingsOf N X fun i => v i ++ w i := by
  induction hv with
  | nil => exact hw
  | cons hp _ ih => exact .cons hp ih

theorem emptied {w : ι → Wording} (h : WordingsOf N X w) : WordingsOf N X fun i => (w i).emptied := h.append (text _)

theorem repeated {w : ι → Wording} (h : WordingsOf N X w) (n : Nat) : WordingsOf N X fun i => (w i).repeated n := by
  induction n with
  | zero => exact .nil
  | succ n ih =>
    cases n with
    | zero => exact h
    | succ n => exact h.append (.cons (.text _) ih)

theorem names {w : ι → Wording} (h : WordingsOf N X w) : NamesOf N fun i => (w i).names := by
  induction h with
  | nil => exact .nil
  | cons hp _ ih =>
    cases hp with
    | text _ => exact ih
    | form _ => exact ih
    | name hn => exact .cons hn ih

theorem arrayWording (z : Synthesizer) {type element : ι → Wording} (htype : WordingsOf N X type) (l : Length)
    (helement : WordingsOf N X element) : WordingsOf N X fun i => z.arrayWording (type i) l (element i) := by
  unfold Synthesizer.arrayWording
  cases z.lists l with
  | none => exact htype.emptied
  | some n => exact htype.append (.cons (.text _) ((helement.repeated n).append (text _)))

/-- Texts of the same form are written alike if the names and the texts of types in one of them are. -/
theorem write_same {w : ι → Wording} (h : WordingsOf N X w) {q : Qualifier} {o : ι}
    (halike : WrittenAlike N X q o (w o).names (w o).forms) (i : ι) : (w i).write q = (w o).write q := by
  induction h with
  | nil => rfl
  | cons hp _ ih =>
    cases hp with
    | text t => rw [Wording.write_text, Wording.write_text, ih halike]
    | form ht =>
      have hrest := ih (halike.right (l := []) (m := [_]))
      rw [Wording.write_form, Wording.write_form, halike.forms ht List.mem_cons_self i, hrest]
    | name hn =>
      have hrest := ih (halike.right (l := [_]) (m := []))
      rw [Wording.write_name, Wording.write_name, halike.names hn List.mem_cons_self i, hrest]

end WordingsOf

section

variable (hN : NamesTogether N X)
include hN

/-- Types of the same form are written in pieces of the same kind. -/
theorem TypesOf.wording {t : ι → Ty} (h : TypesOf N X t) : WordingsOf N X fun i => (t i).wording := by
  have hmore (args : List (ι → Ty)) (h : ∀ a ∈ args, WordingsOf N X fun i => (a i).wording) :
      WordingsOf N X fun i => Ty.wordingMore (args.map (· i)) := by
    induction args with
    | nil => exact .nil
    | cons a rest ih =>
      exact .cons (.text _) ((h a List.mem_cons_self).append (ih fun b hb => h b (List.mem_cons_of_mem a hb)))
  have hnamed {n : ι → TypeName} (hn : N n) (args : List (ι → Ty))
      (h : ∀ a ∈ args, WordingsOf N X fun i => (a i).wording) (t : ι → Ty) :
      WordingsOf N X fun i => (Ty.named (n i) (args.map (· i)) (t i)).wording := by
    cases args with
    | nil => exact .cons (.name hn) .nil
    | cons a rest =>
      have hrest := hmore rest fun b hb => h b (List.mem_cons_of_mem a hb)
      exact .cons (.name hn) (.cons (.text _) (((h a List.mem_cons_self).append hrest).append (.text _)))
  have hfield (f : Field (ι → Ty)) (h : WordingsOf N X fun i => (f.type i).wording) :
      WordingsOf N X fun i => Ty.wordingField (f.map (· i)) := by
    obtain ⟨name, t, embedded, tag⟩ := f
    have htype : WordingsOf N X fun i =>
        if embedded then (t i).wording else .text name :: .text " " :: (t i).wording := by
      cases embedded with
      | true => exact h
      | false => exact .cons (.text _) (.cons (.text _) h)
    cases tag with
    | none => exact htype.append .nil
    | some text => exact htype.append (.cons (.text _) (.text _))
  have hfields (fields : List (Field (ι → Ty))) (h : ∀ f ∈ fields, WordingsOf N X fun i => (f.type i).wording) :
      WordingsOf N X fun i => Ty.wordingMoreFields (fields.map (Field.map (· i))) := by
    induction fields with
    | nil => exact .nil
    | cons f rest ih =>
      refine .cons (.text _) ((hfield f (h f List.mem_cons_self)).append ?_)
      exact ih fun g hg => h g (List.mem_cons_of_mem f hg)
  induction h with
  | primitive p =>
    cases p with
    | pointer => exact .cons (.name (hN.same _)) .nil
    | _ => exact .text _
  | param name => exact .text name
  | func h => exact .cons (.form h) .nil
  | interface h => exact .cons (.form h) .nil
  | unseen h => exact .cons (.name h) .nil
  | pointer _ ih => exact .cons (.text _) ih
  | slice _ ih => exact .cons (.text _) ih
  | array l _ ih => exact .cons (.text _) (.cons (.text _) (.cons (.text _) ih))
  | map _ _ ihk ihv => exact .cons (.text _) (ihk.append (.cons (.text _) ihv))
  | chan d _ ih => exact .cons (.text _) ih
  | named n _ _ ihargs _ => exact hnamed (hN.same n) _ ihargs _
  | spelled hn _ ihargs => exact hnamed hn _ ihargs _
  | @struct fields _ ih =>
    cases fields with
    | nil => exact .text _
    | cons f rest =>
      have hrest := hfields rest fun g hg => ih g (List.mem_cons_of_mem f hg)
      exact .cons (.text _) (((hfield f (ih f List.mem_cons_self)).append hrest).append (.text _))

end

/-! ## Zero values -/

/-- Zero values of the same form. -/
inductive ValuesOf (N : (ι → TypeName) → Prop) (X : (ι → String) → Prop) : (ι → Worded) → Prop
  | text {w : ι → Wording} (h : WordingsOf N X w) : ValuesOf N X fun i => .text (w i)
  | composite {type : ι → Wording} (h : WordingsOf N X type) {fields : List (String × (ι → Worded))}
    (hfields : ∀ f ∈ fields, ValuesOf N X f.2) :
    ValuesOf N X fun i => .composite (type i) (fields.map fun f => (f.1, f.2 i))

namespace ValuesOf

theorem oneLine {v : ι → Worded} (h : ValuesOf N X v) : WordingsOf N X fun i => (v i).oneLine := by
  cases h with
  | text h => exact h
  | composite h _ => exact h.emptied

theorem names {v : ι → Worded} (h : ValuesOf N X v) : NamesOf N fun i => (v i).names := by
  induction h with
  | text h => exact h.names
  | composite htype _ ih =>
    have hfields (fields : List (String × (ι → Worded))) (h : ∀ f ∈ fields, NamesOf N fun i => (f.2 i).names) :
        NamesOf N fun i => Worded.namesOfFields (fields.map fun f => (f.1, f.2 i)) := by
      induction fields with
      | nil => exact .nil
      | cons f rest ih => exact (h f List.mem_cons_self).append (ih fun g hg => h g (List.mem_cons_of_mem f hg))
    exact htype.names.append (hfields _ ih)

/-- Zero values of the same form are written alike if the names and the texts of types in one of them are. -/
theorem write_same {v : ι → Worded} (h : ValuesOf N X v) {q : Qualifier} {o : ι}
    (halike : WrittenAlike N X q o (v o).names (v o).forms) (i : ι) : (v i).write q = (v o).write q := by
  induction h with
  | text h => rw [Worded.write, Worded.write, h.write_same halike]
  | @composite _ htype fields _ ih =>
    have hfields (fields : List (String × (ι → Worded)))
        (h : ∀ f ∈ fields, WrittenAlike N X q o (f.2 o).names (f.2 o).forms → (f.2 i).write q = (f.2 o).write q)
        (halike : WrittenAlike N X q o (Worded.namesOfFields (fields.map fun f => (f.1, f.2 o)))
          (Worded.formsOfFields (fields.map fun f => (f.1, f.2 o)))) :
        Worded.writeFields q (fields.map fun f => (f.1, f.2 i)) =
          Worded.writeFields q (fields.map fun f => (f.1, f.2 o)) := by
      induction fields with
      | nil => rfl
      | cons f rest ih =>
        have hrest := ih (fun g hg => h g (List.mem_cons_of_mem f hg)) halike.right
        rw [List.map_cons, List.map_cons, Worded.writeFields, Worded.writeFields, hrest,
          h f List.mem_cons_self halike.left]
    rw [Worded.write, Worded.write, htype.write_same halike.left, hfields fields ih halike.right]

end ValuesOf

/-- The declared type that stands for another one, with its text: none, or the same with texts of the same form. -/
inductive OutersOf (N : (ι → TypeName) → Prop) (X : (ι → String) → Prop) : (ι → Option (TypeName × Wording)) → Prop
  | none : OutersOf N X fun _ => none
  | some (n : TypeName) {w : ι → Wording} (h : WordingsOf N X w) : OutersOf N X fun i => some (n, w i)

theorem OutersOf.names {outer : ι → Option (TypeName × Wording)} (h : OutersOf N X outer) :
    NamesOf N fun i => Synthesizer.outerNames (outer i) := by
  cases h with
  | none => exact .nil
  | some _ h => exact h.names

variable (z : Synthesizer)

theorem wordedFields_of {fields : List (Field (ι → Ty))} {recurse : Bool} {visiting : List TypeName}
    (h : ∀ f ∈ fields, ValuesOf N X fun i => z.worded recurse visiting none (f.type i)) (samePackage : Bool) :
    ∃ values : List (String × (ι → Worded)), (∀ v ∈ values, ValuesOf N X v.2) ∧
      ∀ i, z.wordedFields recurse visiting samePackage (fields.map (Field.map (· i))) =
        values.map fun v => (v.1, v.2 i) := by
  induction fields with
  | nil => exact ⟨[], by simp, fun _ => by rw [List.map_nil, Synthesizer.wordedFields]; rfl⟩
  | cons f rest ih =>
    obtain ⟨values, hvalues, hrest⟩ := ih fun g hg => h g (List.mem_cons_of_mem f hg)
    by_cases hshown : (isExported f.name || samePackage) = true
    · refine ⟨(f.name, fun i => z.worded recurse visiting none (f.type i)) :: values, ?_, fun i => ?_⟩
      · intro v hv
        rcases List.mem_cons.mp hv with rfl | hv
        · exact h f List.mem_cons_self
        · exact hvalues v hv
      · rw [List.map_cons, Field.map, Synthesizer.wordedFields, hrest, List.map_cons]
        exact if_pos hshown
    · refine ⟨values, hvalues, fun i => ?_⟩
      rw [List.map_cons, Field.map, Synthesizer.wordedFields, hrest]
      exact if_neg hshown

theorem droppedFields_of {fields : List (Field (ι → Ty))} {recurse : Bool} {visiting : List TypeName}
    (h : ∀ f ∈ fields, NamesOf N fun i => z.dropped recurse visiting none (f.type i)) (samePackage : Bool) :
    NamesOf N fun i => z.droppedFields recurse visiting samePackage (fields.map (Field.map (· i))) := by
  induction fields with
  | nil => exact .nil
  | cons f rest ih =>
    have hrest := ih fun g hg => h g (List.mem_cons_of_mem f hg)
    simp only [List.map_cons, Field.map, Synthesizer.droppedFields]
    by_cases hshown : (isExported f.name || samePackage) = true
    · simp only [if_pos hshown]
      exact (h f List.mem_cons_self).append hrest
    · simp only [if_neg hshown]
      exact hrest

section

variable (hN : NamesTogether N X)
include hN

/-- The zero values of types of the same form are of the same form. -/
theorem TypesOf.worded {t : ι → Ty} (h : TypesOf N X t) (recurse : Bool) (visiting : List TypeName)
    {outer : ι → Option (TypeName × Wording)} (houter : OutersOf N X outer) :
    ValuesOf N X fun i => z.worded recurse visiting (outer i) (t i) := by
  induction h generalizing recurse visiting outer with
  | primitive p => exact .text (.text _)
  | param name => exact .text (.text _)
  | func _ | interface _ | pointer _ _ | slice _ _ | map _ _ _ _ | chan _ _ _ => exact .text (.text _)
  | unseen hn => exact .text (WordingsOf.emptied (.cons (.name hn) .nil))
  | array l h ih =>
    have helement := (ih false visiting .none).oneLine
    cases houter with
    | none => exact .text ((TypesOf.wording hN (.array l h)).arrayWording z l helement)
    | some _ hw => exact .text (hw.arrayWording z l helement)
  | @named n args t hargs h _ ih =>
    cases houter with
    | some m hw => exact ih recurse visiting (.some m hw)
    | none =>
      have hwording := TypesOf.wording hN (.named n hargs h)
      have hrun (i : ι) : z.worded recurse visiting none (.named n (args.map (· i)) (t i)) =
          if z.wellKnown.contains n.qualified then .text (Ty.named n (args.map (· i)) (t i)).wording.emptied
          else z.worded recurse visiting (some (n, (Ty.named n (args.map (· i)) (t i)).wording)) (t i) := rfl
      simp only [hrun]
      split
      · exact .text hwording.emptied
      · exact ih recurse visiting (.some n hwording)
  | @spelled n hn args hargs _ =>
    have hunseen : ValuesOf N X fun i => .text (Ty.unseen (n i)).wording.emptied :=
      .text (WordingsOf.emptied (.cons (.name hn) .nil))
    cases houter with
    | some _ _ => exact hunseen
    | none =>
      obtain ⟨text, htext⟩ := hN.qualified hn
      have hrun (i : ι) : z.worded recurse visiting none (.named (n i) (args.map (· i)) (.unseen (n i))) =
          if z.wellKnown.contains text then .text (Ty.named (n i) (args.map (· i)) (.unseen (n i))).wording.emptied
          else .text (Ty.unseen (n i)).wording.emptied := by
        rw [← htext i]
        rfl
      simp only [hrun]
      split
      · exact .text (TypesOf.wording hN (.spelled hn hargs)).emptied
      · exact hunseen
  | @struct fields h ih =>
    cases houter with
    | none => exact .text (TypesOf.wording hN (.struct h)).emptied
    | @some n type htype =>
      obtain ⟨values, hvalues, hworded⟩ := wordedFields_of z
        (fun f hf => ih f hf recurse (n :: visiting) .none) (n.path == z.packagePath)
      have hrun (i : ι) : z.worded recurse visiting (some (n, type i)) (.struct (fields.map (Field.map (· i)))) =
          if recurse && !visiting.contains n then
            if values.isEmpty then .text (type i).emptied
            else .composite (type i) (values.map fun v => (v.1, v.2 i))
          else .text (type i).emptied := by
        rw [Synthesizer.worded, hworded]
        cases values <;> rfl
      simp only [hrun]
      split
      · cases values with
        | nil => exact .text htype.emptied
        | cons v rest => exact .composite htype hvalues
      · exact .text htype.emptied

/-- The names that zero values of types of the same form ask for in vain belong together. -/
theorem TypesOf.dropped {t : ι → Ty} (h : TypesOf N X t) (recurse : Bool) (visiting : List TypeName)
    {outer : ι → Option (TypeName × Wording)} (houter : OutersOf N X outer) :
    NamesOf N fun i => z.dropped recurse visiting (outer i) (t i) := by
  induction h generalizing recurse visiting outer with
  | primitive _ | param _ | func _ | interface _ | pointer _ _ | slice _ _ | map _ _ _ _ | chan _ _ _ | unseen _ =>
    exact houter.names
  | array l h ih =>
    simp only [Synthesizer.dropped]
    cases z.lists l with
    | none => exact .nil
    | some n => exact ih false visiting .none
  | @named n args t hargs h _ ih =>
    cases houter with
    | some m hw => exact ih recurse visiting (.some m hw)
    | none =>
      simp only [Synthesizer.dropped]
      split
      · exact .nil
      · exact ih recurse visiting (.some n (TypesOf.wording hN (.named n hargs h)))
  | spelled hn hargs _ =>
    cases houter with
    | some m hw => exact hw.names
    | none =>
      obtain ⟨text, htext⟩ := hN.qualified hn
      simp only [Synthesizer.dropped, htext]
      split
      · exact .nil
      · exact (TypesOf.wording hN (.spelled hn hargs)).names
  | struct h ih =>
    cases houter with
    | none => exact .nil
    | some n _ =>
      simp only [Synthesizer.dropped]
      split
      · exact droppedFields_of z (fun f hf => ih f hf recurse (n :: visiting) .none) _
      · exact .nil

/-- Types of the same form have the same zero value, and ask for the same imports, if the names and the texts of types
that stand in one of the zero values are written alike. -/
theorem TypesOf.synthesize_same {t : ι → Ty} (h : TypesOf N X t) {o : ι}
    (halike : WrittenAlike N X z.qualifier o (z.spelled (t o)).names (z.spelled (t o)).forms) (i : ι) :
    z.synthesize (t i) = z.synthesize (t o) := by
  have hvalues : ValuesOf N X fun i => z.spelled (t i) := h.worded z hN z.recurse [] .none
  have hunused : NamesOf N fun i => z.unused (t i) := h.dropped z hN z.recurse [] .none
  have hwritten := hvalues.write_same halike i
  rw [z.write_spelled, z.write_spelled] at hwritten
  refine Prod.ext hwritten ((PathSet.ofList_sorted _).eq_of_mem_iff (PathSet.ofList_sorted _) fun p => ?_)
  show p ∈ (z.synthesize (t i)).2 ↔ p ∈ (z.synthesize (t o)).2
  rw [Synthesizer.mem_synthesize, Synthesizer.mem_synthesize, hvalues.names.pathAmong hN _ _ i o,
    hunused.pathAmong hN _ _ i o]

end

/-! ## Merged literals -/

/-- Elements are matched with the names of fields. -/
theorem matchElements_names {fields fields' : List (Field Ty)} (h : fields.map (·.name) = fields'.map (·.name))
    (literal : CompositeLiteral) (typeText : String) :
    matchElements fields literal typeText = matchElements fields' literal typeText := by
  have hlength : fields.length = fields'.length := by
    rw [← List.length_map (f := Field.name), h, List.length_map]
  have hindex (key : Key) : fieldIndex fields key = fieldIndex fields' key := by
    have hnames (fields : List (Field Ty)) :
        fieldIndex fields key = if key.isIdent then (fields.map (·.name)).findIdx? (· == key.text) else none := by
      rw [List.findIdx?_map]
      rfl
    rw [hnames, hnames, h]
  have hkeyed (seen : List (Nat × Element)) (elements : List Element) :
      matchKeyed fields typeText seen elements = matchKeyed fields' typeText seen elements := by
    induction elements generalizing seen with
    | nil => rfl
    | cons e rest ih => simp only [matchKeyed, hindex, h, ih]
  simp only [matchElements, hlength, hkeyed]

theorem fields_names (fields : List (Field (ι → Ty))) (i : ι) :
    (fields.map (Field.map (· i))).map (·.name) = fields.map (·.name) := by
  rw [List.map_map]
  rfl

theorem zeroedTypes_cons (samePackage : Bool) (supplied : List (Nat × Element)) (index : Nat) (f : Field Ty)
    (rest : List (Field Ty)) : zeroedTypes samePackage supplied index (f :: rest) =
      if (supplied.lookup index).isNone && (f.exported || samePackage) then
        f.type :: zeroedTypes samePackage supplied (index + 1) rest
      else zeroedTypes samePackage supplied (index + 1) rest := by
  unfold zeroedTypes
  rw [unsetFields]
  cases supplied.lookup index with
  | some e => rfl
  | none => cases hshown : (f.exported || samePackage) <;> simp [hshown]

/-- Fields with types of the same form are merged alike if the zero values they get are the same. -/
theorem mergeFields_same (file : SourceFile) (z : Synthesizer) (samePackage : Bool) (supplied : List (Nat × Element))
    (index : Nat) {fields : List (Field (ι → Ty))} {o i : ι}
    (hsame : ∀ f ∈ fields, f.type o ∈ zeroedTypes samePackage supplied index (fields.map (Field.map (· o))) →
      z.synthesize (f.type i) = z.synthesize (f.type o)) (s : Session) :
    mergeFields file z samePackage supplied index (fields.map (Field.map (· i))) s =
      mergeFields file z samePackage supplied index (fields.map (Field.map (· o))) s := by
  induction fields generalizing index s with
  | nil => rfl
  | cons f rest ih =>
    have hrest (s : Session) := ih (index + 1) (s := s) fun g hg hzero => hsame g (List.mem_cons_of_mem f hg) (by
      rw [List.map_cons, zeroedTypes_cons]
      split
      · exact List.mem_cons_of_mem _ hzero
      · exact hzero)
    rw [List.map_cons, List.map_cons, mergeFields, mergeFields]
    cases hlookup : supplied.lookup index with
    | some e =>
      dsimp only
      rw [hrest]
      rfl
    | none =>
      have hexported (i : ι) : (f.map (· i)).exported = f.exported := rfl
      simp only [hexported]
      split
      · next hshown =>
        have hzero : z.synthesize (f.map (· i)).type = z.synthesize (f.map (· o)).type :=
          hsame f List.mem_cons_self (by
            rw [List.map_cons, zeroedTypes_cons, hlookup, Option.isNone_none, Bool.true_and, hexported, if_pos hshown]
            exact List.mem_cons_self)
        simp only [hzero, hrest]
        rfl
      · exact hrest s

/-- Literals with struct types of the same form are filled alike if the zero values they get are the same. -/
theorem fillResolved_same (r : FillRequest) (options : FillOptions) (literal : CompositeLiteral) (t : ι → Ty)
    {fields : List (Field (ι → Ty))} (path : String) {o i : ι}
    (hsame : ∀ f ∈ fields, f.type o ∈ resolvedZeros r options literal ⟨t o, fields.map (Field.map (· o)), path⟩ →
      (options.synthesizer r).synthesize (f.type i) = (options.synthesizer r).synthesize (f.type o)) (s : Session) :
    fillResolved r options literal ⟨t i, fields.map (Field.map (· i)), path⟩ s =
      fillResolved r options literal ⟨t o, fields.map (Field.map (· o)), path⟩ s := by
  have hmatch := matchElements_names ((fields_names fields i).trans (fields_names fields o).symm) literal
    (r.file.slice literal.typeSpan)
  unfold resolvedZeros at hsame
  unfold fillResolved merge
  simp only [hmatch]
  cases hsupplied : matchElements (fields.map (Field.map (· o))) literal (r.file.slice literal.typeSpan) with
  | error e => rfl
  | ok supplied =>
    simp only [hsupplied] at hsame
    simp only [mergeFields_same r.file (options.synthesizer r) (path == (options.synthesizer r).packagePath) supplied 0
      hsame]

end LiteralFill
