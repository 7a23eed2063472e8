import LiteralFill.Proofs.Fill.Steps

/-!
Where the struct types are written that a type is made of. A declared type may stand for a struct type that
another package has written: its declaration may name another type, and an alias may stand for a struct type
without a name. The resolver here is the one of the library with a note at each struct type, the import path
of the package in whose file it is written; without the notes the answers are the same.
-/

namespace LiteralFill

open Resolution (give stop forEach)

/-! ## Types with the packages of their struct types -/

/-- A type with a note at each struct type that its values are made of: the import path of the package in
whose file that struct type is written. `other` is a type whose values hold no struct in sight. -/
inductive WrittenTy
  | named (name : TypeName) (args : List Ty) (underlying : WrittenTy)
  | array (length : Length) (elem : WrittenTy)
  | struct (package : String) (fields : List (Field WrittenTy))
  | other (type : Ty)
  deriving Inhabited

namespace WrittenTy

mutual

/-- The type without the notes. -/
def ty : WrittenTy → Ty
  | named name args t => .named name args t.ty
  | array length t => .array length t.ty
  | struct _ fields => .struct (tyFields fields)
  | other t => t

def tyFields : List (Field WrittenTy) → List (Field Ty)
  | [] => []
  | ⟨name, t, embedded, tag⟩ :: rest => ⟨name, t.ty, embedded, tag⟩ :: tyFields rest

end

theorem tyFields_eq_map (fields : List (Field WrittenTy)) :
    tyFields fields = fields.map fun f => ⟨f.name, f.type.ty, f.embedded, f.tag⟩ := by
  induction fields with
  | nil => rfl
  | cons f rest ih => rw [tyFields, ih, List.map_cons]

/-- The struct type that a type stands for: where it is written, and its fields. -/
def structType : WrittenTy → Option (String × List (Field WrittenTy))
  | named _ _ t => t.structType
  | struct package fields => some (package, fields)
  | _ => none

/-- The path of a declared type. -/
def path? : WrittenTy → Option String
  | named n _ _ => some n.path
  | _ => none

theorem tyFields_fieldsOf (decls : List (FieldDecl TypeExpr)) (types : List WrittenTy) :
    tyFields ((decls.zip types).flatMap fun (d, t) => (fieldsOf d t.ty).map fun f => { f with type := t }) =
      (decls.zip (types.map ty)).flatMap fun (d, t) => fieldsOf d t := by
  rw [tyFields_eq_map, List.map_flatMap, List.zip_map_right, List.flatMap_map]
  refine congrArg (List.flatMap · _) (funext fun e => ?_)
  obtain ⟨d, t⟩ := e
  simp only [Prod.map, id, List.map_map]
  unfold fieldsOf
  split
  · cases d.embeddedName <;> rfl
  · rw [List.map_map]
    rfl

end WrittenTy

/-- The types that the type parameters stand for, with notes. -/
abbrev WrittenArguments := List (String × WrittenTy)

/-- The types that the type parameters stand for. -/
def WrittenArguments.types (known : WrittenArguments) : List (String × Ty) :=
  known.map fun (name, t) => (name, t.ty)

theorem WrittenArguments.lookup_types (known : WrittenArguments) (name : String) :
    known.types.lookup name = (known.lookup name).map WrittenTy.ty := by
  induction known with
  | nil => rfl
  | cons e rest ih =>
    obtain ⟨n, t⟩ := e
    unfold types at *
    rw [List.map_cons, List.lookup_cons, List.lookup_cons, ih]
    split <;> rfl

/-! ## The resolver -/

/-- A resolver of the types inside a type. -/
abbrev WrittenInner := Env → WrittenArguments → TypeExpr → Mode → Resolution WrittenTy

/-- The resolver of the types inside a type, without notes. -/
def WrittenInner.forget (inner : WrittenInner) (known : WrittenArguments) : Inner :=
  fun env type mode => (inner env known type mode).map WrittenTy.ty

/-- A type argument. -/
def writtenArg (tree : FileTree) (inner : WrittenInner) (env : Env) (known : WrittenArguments)
    (arg : TypeExpr) : Resolution WrittenTy :=
  match arg with
  | .name none name [] => do
    match ← env.lookup tree name with
    | none => give (.other (.param name))
    | some _ => inner env known arg .value
  | _ => inner env known arg .value

/-- The types that the parameters of a declaration stand for. -/
def writtenParams (site : Site) (args : List WrittenTy) : WrittenArguments :=
  (site.decl.params.zipIdx.map fun (param, i) =>
    (param, (args[i]?).getD (.other (.param param)))).reverse

/-- The type that a declaration gives to a name with these arguments. -/
def writtenDeclared (tree : FileTree) (inner : WrittenInner) (env : Env) (known : WrittenArguments)
    (site : Site) (args : List TypeExpr) : Resolution WrittenTy := do
  let args ← forEach (writtenArg tree inner env known) args
  let inside := env.inside site (args.map WrittenTy.ty)
  let n : TypeName := ⟨site.path, site.name, site.decl.name⟩
  let place := (site.origin, n, site.decl.span.start)
  if site.decl.isAlias then
    if env.expanding.contains place then stop .endless
    else
      inner { inside with expanding := place :: env.expanding } (writtenParams site args) site.decl.type
        .value
  else if env.visiting.contains n then give (.other (.unseen n))
  else do
    let underlying ←
      inner { inside with visiting := n :: env.visiting, expanding := [] } (writtenParams site args)
        site.decl.type .value
    give (.named n (args.map WrittenTy.ty) underlying)

/-- A declared type that is not looked into. -/
def writtenSpelled (inner : WrittenInner) (env : Env) (known : WrittenArguments) (n : TypeName)
    (args : List TypeExpr) : Resolution WrittenTy :=
  (spell (inner.forget known) env n args).map .other

/-- What a name stands for, once it is looked up. -/
def writtenFound (tree : FileTree) (inner : WrittenInner) (env : Env) (known : WrittenArguments)
    (name : String) (args : List TypeExpr) (mode : Mode) : Option Found → Resolution WrittenTy
  | some (.type t) => give ((known.lookup name).getD (.other t))
  | some (.declaration site) =>
    if mode = .spelled then writtenSpelled inner env known ⟨site.path, site.name, name⟩ args
    else writtenDeclared tree inner env known site args
  | none =>
    if mode = .root then stop (.unresolved name)
    else writtenSpelled inner env known ⟨env.path, env.name, name⟩ args

/-- What a name of another package stands for, once its declaration is looked up. -/
def writtenSite (tree : FileTree) (inner : WrittenInner) (env : Env) (known : WrittenArguments)
    (n : TypeName) (args : List TypeExpr) (mode : Mode) : Option Site → Resolution WrittenTy
  | some site => writtenDeclared tree inner env known site args
  | none =>
    if mode = .root then stop (.unresolved (n.package ++ "." ++ n.name))
    else writtenSpelled inner env known n args

/-- What a name of another package stands for, once its import is looked up. -/
def writtenImported (tree : FileTree) (inner : WrittenInner) (env : Env) (known : WrittenArguments)
    (qualifier name : String) (args : List TypeExpr) (mode : Mode) (imported : Option (String × String)) :
    Resolution WrittenTy :=
  if imported.map (·.1) = some "unsafe" && name = "Pointer" then give (.other (.primitive .pointer))
  else if mode = .spelled then
    writtenSpelled inner env known
      ⟨(imported.map (·.1)).getD qualifier, (imported.map (·.2)).getD qualifier, name⟩ args
  else importedSite tree name imported >>=
    writtenSite tree inner env known ⟨(imported.map (·.1)).getD qualifier, qualifier, name⟩ args mode

/-- A type, given the resolver of the types inside it. A struct type is written in the package whose names are
visible. -/
def writtenForm (tree : FileTree) (inner : WrittenInner) (env : Env) (known : WrittenArguments)
    (type : TypeExpr) (mode : Mode) : Resolution WrittenTy :=
  match type with
  | .name none name args => env.lookup tree name >>= writtenFound tree inner env known name args mode
  | .name (some q) name args =>
    env.importNamed tree q >>= writtenImported tree inner env known q name args mode
  | .array l t => do give (.array (env.arrayLength l) (← inner env known t mode.inner))
  | .struct decls => do
    let types ← forEach (fun d => inner env known d.type mode.inner) decls
    give (.struct env.path ((decls.zip types).flatMap fun (d, t) =>
      (fieldsOf d t.ty).map fun f => { f with type := t }))
  | _ => (resolveForm tree (inner.forget known) env type mode).map .other

/-- A type with at most `depth` types around one another. -/
def writtenWithin (tree : FileTree) :
    Nat → Env → WrittenArguments → TypeExpr → Mode → Session → Except ResolveError WrittenTy × Session
  | 0, _, _, _, _, s => (.error .endless, s)
  | depth + 1, env, known, type, mode, s => writtenForm tree (writtenWithin tree depth) env known type mode s

/-- The type that stands before a literal. -/
def writtenType (tree : FileTree) (scope : Scope) (type : TypeExpr) : Resolution WrittenTy := do
  let package ← packageBeside tree scope
  writtenWithin tree (nestingBound tree scope.file) (scope.env package) [] type .root

/-! ## The resolver without the notes -/

theorem writtenParams_types (env : Env) (site : Site) (args : List WrittenTy) :
    (writtenParams site args).types = (env.inside site (args.map WrittenTy.ty)).arguments := by
  unfold writtenParams WrittenArguments.types Env.inside
  rw [List.map_reverse, List.map_map]
  refine congrArg _ (List.map_congr_left fun e _ => ?_)
  obtain ⟨param, i⟩ := e
  simp only [Function.comp, List.getElem?_map]
  cases args[i]? <;> rfl

section

variable {tree : FileTree} {inner : WrittenInner} {plainInner : Inner}
  (hinner : ∀ env known type mode, env.arguments = WrittenArguments.types known →
    (inner env known type mode).map WrittenTy.ty = plainInner env type mode)
  {env : Env} {known : WrittenArguments} (hknown : env.arguments = known.types)
include hinner hknown

theorem writtenArg_ty (arg : TypeExpr) :
    (writtenArg tree inner env known arg).map WrittenTy.ty = resolveArg tree plainInner env arg := by
  have hvalue := hinner env known arg .value hknown
  unfold resolveArg
  split
  · unfold writtenArg
    rw [Resolution.map_bind]
    refine congrArg _ (funext fun found => ?_)
    cases found with
    | none => rfl
    | some _ => exact hvalue
  · next hother =>
    unfold writtenArg
    split
    · exact absurd rfl (hother _)
    · exact hvalue

theorem writtenSpelled_ty (n : TypeName) (args : List TypeExpr) :
    (writtenSpelled inner env known n args).map WrittenTy.ty = spell plainInner env n args := by
  have hforget : ∀ a, inner.forget known env a .spelled = plainInner env a .spelled := fun a =>
    hinner env known a .spelled hknown
  have hspell : spell (inner.forget known) env n args = spell plainInner env n args := by
    unfold spell
    simp only [hforget]
  rw [writtenSpelled, hspell, Resolution.map_map]
  exact Resolution.map_id _

theorem writtenDeclared_ty (site : Site) (args : List TypeExpr) :
    (writtenDeclared tree inner env known site args).map WrittenTy.ty =
      resolveDeclared tree plainInner env site args := by
  have hargs : forEach (resolveArg tree plainInner env) args =
      (forEach (writtenArg tree inner env known) args).map (List.map WrittenTy.ty) := by
    rw [Resolution.map_forEach]
    exact congrArg (forEach · args) (funext fun a => (writtenArg_ty hinner hknown a).symm)
  unfold writtenDeclared resolveDeclared
  rw [Resolution.map_bind, hargs, Resolution.bind_map]
  refine congrArg _ (funext fun args => ?_)
  have hinside := (writtenParams_types env site args).symm
  dsimp only
  split
  · split
    · rfl
    · exact hinner _ _ _ _ hinside
  · split
    · rfl
    · have hunderlying := hinner { env.inside site (args.map WrittenTy.ty) with
        visiting := ⟨site.path, site.name, site.decl.name⟩ :: env.visiting, expanding := [] }
        (writtenParams site args) site.decl.type .value hinside
      rw [Resolution.map_bind, ← hunderlying, Resolution.bind_map]
      rfl

theorem writtenFound_ty (name : String) (args : List TypeExpr) (mode : Mode) (found : Option Found)
    (htype : ∀ t, found = some (.type t) → env.arguments.lookup name = some t ∨
      env.arguments.lookup name = none ∧ predeclaredType name = some t) :
    (writtenFound tree inner env known name args mode found).map WrittenTy.ty =
      resolveFound tree plainInner env name args mode found := by
  match found with
  | some (.type t) =>
    have hlookup := htype t rfl
    rw [hknown, WrittenArguments.lookup_types] at hlookup
    refine congrArg give ?_
    cases h : known.lookup name with
    | none => rfl
    | some w =>
      rw [h] at hlookup
      simpa using hlookup
  | some (.declaration site) =>
    unfold writtenFound resolveFound
    dsimp only
    split
    · exact writtenSpelled_ty hinner hknown ..
    · exact writtenDeclared_ty hinner hknown ..
  | none =>
    unfold writtenFound resolveFound
    dsimp only
    split
    · rfl
    · exact writtenSpelled_ty hinner hknown ..

theorem writtenPlain_ty (name : String) (args : List TypeExpr) (mode : Mode) :
    (env.lookup tree name >>= writtenFound tree inner env known name args mode).map WrittenTy.ty =
      resolvePlain tree plainInner env name args mode := by
  rw [resolvePlain_eq]
  rcases Env.lookup_cases tree env name with ⟨found, hnear, h⟩ | h
  · rw [h]
    refine writtenFound_ty hinner hknown name args mode (some found) fun t ht => ?_
    cases ht
    exact Env.lookupNear_type hnear
  · rw [h, Resolution.bind_map, Resolution.map_bind, Resolution.bind_map]
    refine congrArg _ (funext fun site => writtenFound_ty hinner hknown name args mode _ fun t ht => ?_)
    cases site <;> cases ht

theorem writtenQualified_ty (qualifier name : String) (args : List TypeExpr) (mode : Mode) :
    (env.importNamed tree qualifier >>= writtenImported tree inner env known qualifier name args mode).map
        WrittenTy.ty =
      resolveQualified tree plainInner env qualifier name args mode := by
  rw [resolveQualified_eq, Resolution.map_bind]
  refine congrArg _ (funext fun imported => ?_)
  unfold writtenImported resolveImported
  split
  · rfl
  · split
    · exact writtenSpelled_ty hinner hknown ..
    · rw [Resolution.map_bind]
      refine congrArg _ (funext fun site => ?_)
      unfold writtenSite resolveSite
      split
      · exact writtenDeclared_ty hinner hknown ..
      · split
        · rfl
        · exact writtenSpelled_ty hinner hknown ..

theorem writtenForm_ty (type : TypeExpr) (mode : Mode) :
    (writtenForm tree inner env known type mode).map WrittenTy.ty =
      resolveForm tree plainInner env type mode := by
  have hforget : ∀ t mode, inner.forget known env t mode = plainInner env t mode := fun t mode =>
    hinner env known t mode hknown
  have hother : ∀ r : Resolution Ty, (r.map WrittenTy.other).map WrittenTy.ty = r := fun r => by
    rw [Resolution.map_map]
    exact Resolution.map_id _
  cases type with
  | name qualifier name args =>
    cases qualifier with
    | none => exact writtenPlain_ty hinner hknown ..
    | some q => exact writtenQualified_ty hinner hknown ..
  | array l t =>
    unfold writtenForm resolveForm
    dsimp only
    rw [Resolution.map_bind, ← hforget, WrittenInner.forget, Resolution.bind_map]
    rfl
  | struct decls =>
    unfold writtenForm resolveForm
    have htypes : forEach (fun d => plainInner env d.type mode.inner) decls =
        (forEach (fun d => inner env known d.type mode.inner) decls).map (List.map WrittenTy.ty) := by
      rw [Resolution.map_forEach]
      exact congrArg (forEach · decls) (funext fun d => (hforget d.type mode.inner).symm)
    dsimp only
    rw [Resolution.map_bind, htypes, Resolution.bind_map]
    refine congrArg _ (funext fun types => ?_)
    exact congrArg give (congrArg Ty.struct (WrittenTy.tyFields_fieldsOf decls types))
  | _ =>
    rw [writtenForm, hother]
    · unfold resolveForm
      simp only [hforget]
    all_goals simp

end

theorem writtenWithin_ty (tree : FileTree) (depth : Nat) {env : Env} {known : WrittenArguments}
    (hknown : env.arguments = known.types) (type : TypeExpr) (mode : Mode) :
    Resolution.map WrittenTy.ty (writtenWithin tree depth env known type mode) =
      resolveWithin tree depth env type mode := by
  induction depth generalizing env known type mode with
  | zero => rfl
  | succ depth ih => exact writtenForm_ty (fun _ _ type mode h => ih h type mode) hknown type mode

/-! ## Every struct type has a note -/

namespace Resolution

variable {α β : Type}

/-- Whatever a step answers has a property. -/
structure Ensures (r : Resolution α) (P : α → Prop) : Prop where
  answer {s s' : Session} {a : α} : r s = (.ok a, s') → P a

namespace Ensures

theorem give {P : α → Prop} {a : α} (h : P a) : Ensures (Resolution.give a) P :=
  ⟨fun hrun => by cases hrun; exact h⟩

theorem stop {P : α → Prop} (e : ResolveError) : Ensures (Resolution.stop e) P := ⟨fun hrun => by cases hrun⟩

theorem bind {Q : α → Prop} {P : β → Prop} {r : Resolution α} {f : α → Resolution β} (hr : r.Ensures Q)
    (hf : ∀ a, Q a → (f a).Ensures P) : Ensures (r >>= f) P := by
  refine ⟨fun hrun => ?_⟩
  obtain ⟨a, s₁, hstep, hrun⟩ := Resolution.bind_ok hrun
  exact (hf a (hr.answer hstep)).answer hrun

theorem trivial (r : Resolution α) : r.Ensures fun _ => True := ⟨fun _ => True.intro⟩

theorem map {Q : α → Prop} {P : β → Prop} {r : Resolution α} {f : α → β} (hr : r.Ensures Q)
    (hf : ∀ a, Q a → P (f a)) : Ensures (Resolution.map f r) P := hr.bind fun a ha => .give (hf a ha)

theorem forEach {P : β → Prop} {f : α → Resolution β} (hf : ∀ a, (f a).Ensures P) (as : List α) :
    Ensures (Resolution.forEach f as) fun bs => ∀ b ∈ bs, P b := by
  induction as with
  | nil => exact give (by simp)
  | cons a rest ih =>
    refine .bind (hf a) fun b hb => .bind ih fun bs hbs => .give ?_
    intro c hc
    rcases List.mem_cons.mp hc with rfl | hc
    · exact hb
    · exact hbs c hc

end Ensures

end Resolution

namespace WrittenTy

mutual

/-- No struct type is without a note. -/
def IsNoted : WrittenTy → Prop
  | named _ _ t => t.IsNoted
  | array _ t => t.IsNoted
  | struct _ fields => AreNoted fields
  | other t => t.structFields = none

def AreNoted : List (Field WrittenTy) → Prop
  | [] => True
  | ⟨_, t, _, _⟩ :: rest => t.IsNoted ∧ AreNoted rest

end

theorem areNoted_iff {fields : List (Field WrittenTy)} : AreNoted fields ↔ ∀ f ∈ fields, f.type.IsNoted := by
  induction fields with
  | nil => simp [AreNoted]
  | cons f rest ih => simp [AreNoted, ih]

end WrittenTy

theorem predeclaredType_structFields {name : String} {t : Ty} (h : predeclaredType name = some t) :
    t.structFields = none := by
  unfold predeclaredType at h
  split at h
  · cases h
    rfl
  · split at h
    · cases h
      rfl
    · split at h
      · cases h
        rfl
      · cases h

theorem spell_ensures (inner : Inner) (env : Env) (n : TypeName) (args : List TypeExpr) :
    (spell inner env n args).Ensures fun t => t.structFields = none := by
  unfold spell
  split
  · exact .give rfl
  · exact .bind (.trivial _) fun _ _ => .give rfl

section

open WrittenTy (IsNoted)

variable {tree : FileTree} {inner : WrittenInner}
  (hinner : ∀ env known type mode, env.arguments = WrittenArguments.types known →
    (∀ e ∈ known, e.2.IsNoted) → (inner env known type mode).Ensures IsNoted)
  {env : Env} {known : WrittenArguments} (hknown : env.arguments = known.types)
  (hnoted : ∀ e ∈ known, e.2.IsNoted)

theorem writtenSpelled_noted (n : TypeName) (args : List TypeExpr) :
    (writtenSpelled inner env known n args).Ensures IsNoted :=
  (spell_ensures _ env n args).map fun _ h => h

include hinner hknown hnoted

theorem writtenArg_noted (arg : TypeExpr) : (writtenArg tree inner env known arg).Ensures IsNoted := by
  unfold writtenArg
  split
  · refine .bind (.trivial _) fun found _ => ?_
    split
    · exact .give rfl
    · exact hinner _ _ _ _ hknown hnoted
  · exact hinner _ _ _ _ hknown hnoted

omit hinner hknown hnoted in
theorem writtenParams_noted (site : Site) {args : List WrittenTy} (hargs : ∀ t ∈ args, t.IsNoted) :
    ∀ e ∈ writtenParams site args, e.2.IsNoted := by
  intro e he
  obtain ⟨⟨param, i⟩, -, rfl⟩ := List.mem_map.mp (List.mem_reverse.mp he)
  dsimp only
  cases h : args[i]? with
  | none => exact rfl
  | some t => exact hargs t (List.mem_of_getElem? h)

theorem writtenDeclared_noted (site : Site) (args : List TypeExpr) :
    (writtenDeclared tree inner env known site args).Ensures IsNoted := by
  refine .bind (.forEach (writtenArg_noted hinner hknown hnoted) args) fun args hargs => ?_
  have hinside := (writtenParams_types env site args).symm
  have hparams := writtenParams_noted site hargs
  dsimp only
  split
  · split
    · exact .stop _
    · exact hinner _ _ _ _ hinside hparams
  · split
    · exact .give rfl
    · exact .bind (hinner _ _ _ _ hinside hparams) fun _ h => .give h

theorem writtenFound_noted (name : String) (args : List TypeExpr) (mode : Mode) (found : Option Found)
    (htype : ∀ t, found = some (.type t) → env.arguments.lookup name = some t ∨
      env.arguments.lookup name = none ∧ predeclaredType name = some t) :
    (writtenFound tree inner env known name args mode found).Ensures IsNoted := by
  match found with
  | some (.type t) =>
    have hlookup := htype t rfl
    rw [hknown, WrittenArguments.lookup_types] at hlookup
    refine .give ?_
    cases h : known.lookup name with
    | none =>
      rw [h] at hlookup
      exact predeclaredType_structFields (by simpa using hlookup)
    | some w =>
      obtain ⟨before, after, hsplit, -⟩ := List.lookup_eq_some_iff.mp h
      exact hnoted (name, w) (by simp [hsplit])
  | some (.declaration site) =>
    unfold writtenFound
    dsimp only
    split
    · exact writtenSpelled_noted ..
    · exact writtenDeclared_noted hinner hknown hnoted ..
  | none =>
    unfold writtenFound
    dsimp only
    split
    · exact .stop _
    · exact writtenSpelled_noted ..

theorem writtenPlain_noted (name : String) (args : List TypeExpr) (mode : Mode) :
    (env.lookup tree name >>= writtenFound tree inner env known name args mode).Ensures IsNoted := by
  rcases Env.lookup_cases tree env name with ⟨found, hnear, h⟩ | h
  · rw [h]
    refine writtenFound_noted hinner hknown hnoted name args mode (some found) fun t ht => ?_
    cases ht
    exact Env.lookupNear_type hnear
  · rw [h, Resolution.bind_map]
    refine .bind (.trivial _) fun site _ => writtenFound_noted hinner hknown hnoted name args mode _ fun t ht => ?_
    cases site <;> cases ht

theorem writtenQualified_noted (qualifier name : String) (args : List TypeExpr) (mode : Mode) :
    (env.importNamed tree qualifier >>=
      writtenImported tree inner env known qualifier name args mode).Ensures IsNoted := by
  refine .bind (.trivial _) fun imported _ => ?_
  unfold writtenImported
  split
  · exact .give rfl
  · split
    · exact writtenSpelled_noted ..
    · refine .bind (.trivial _) fun site _ => ?_
      unfold writtenSite
      split
      · exact writtenDeclared_noted hinner hknown hnoted ..
      · split
        · exact .stop _
        · exact writtenSpelled_noted ..

theorem writtenForm_noted (type : TypeExpr) (mode : Mode) :
    (writtenForm tree inner env known type mode).Ensures IsNoted := by
  cases type with
  | name qualifier name args =>
    cases qualifier with
    | none => exact writtenPlain_noted hinner hknown hnoted ..
    | some q => exact writtenQualified_noted hinner hknown hnoted ..
  | array l t => exact .bind (hinner _ _ _ _ hknown hnoted) fun _ h => .give h
  | struct decls =>
    refine .bind (.forEach (fun d => hinner _ _ _ _ hknown hnoted) decls) fun types htypes => .give ?_
    refine WrittenTy.areNoted_iff.mpr fun f hf => ?_
    obtain ⟨⟨d, t⟩, hmem, hf⟩ := List.mem_flatMap.mp hf
    obtain ⟨g, -, rfl⟩ := List.mem_map.mp hf
    exact htypes t (List.of_mem_zip hmem).2
  | func text => exact .give rfl
  | interface text => exact .give rfl
  | map k v =>
    refine .map (Q := fun t : Ty => t.structFields = none) ?_ fun _ h => h
    exact .bind (.trivial _) fun _ _ => .bind (.trivial _) fun _ _ => .give rfl
  | _ =>
    refine .map (Q := fun t : Ty => t.structFields = none) ?_ fun _ h => h
    exact .bind (.trivial _) fun _ _ => .give rfl

end

theorem writtenWithin_noted (tree : FileTree) (depth : Nat) {env : Env} {known : WrittenArguments}
    (hknown : env.arguments = known.types) (hnoted : ∀ e ∈ known, e.2.IsNoted) (type : TypeExpr)
    (mode : Mode) :
    Resolution.Ensures (writtenWithin tree depth env known type mode) WrittenTy.IsNoted := by
  induction depth generalizing env known type mode with
  | zero => exact ⟨fun h => by cases h⟩
  | succ depth ih => exact writtenForm_noted (fun _ _ type mode h hn => ih h hn type mode) hknown hnoted type mode

/-- A type that is declared as a struct type is written in the package of its name. -/
theorem writtenDeclared_struct (tree : FileTree) (depth : Nat) (env : Env) (known : WrittenArguments)
    {site : Site} {decls : List (FieldDecl TypeExpr)} (halias : site.decl.isAlias = false)
    (htype : site.decl.type = .struct decls) (args : List TypeExpr) :
    (writtenDeclared tree (writtenWithin tree depth) env known site args).Ensures fun w =>
      ∀ written fields, w.structType = some (written, fields) → w.path? = some written := by
  refine .bind (.trivial _) fun args _ => ?_
  rw [halias, htype]
  dsimp only
  rw [if_neg (by simp)]
  split
  · exact .give fun _ _ h => by cases h
  · cases depth with
    | zero => exact .bind (Q := fun _ => False) ⟨fun h => by cases h⟩ fun _ h => h.elim
    | succ depth =>
      refine .bind (Q := fun w => ∃ fields, w = .struct site.path fields) ?_ ?_
      · exact .bind (.trivial _) fun types _ => .give ⟨_, rfl⟩
      · rintro _ ⟨fields, rfl⟩
        exact .give fun written fields h => by cases h; rfl

end LiteralFill
