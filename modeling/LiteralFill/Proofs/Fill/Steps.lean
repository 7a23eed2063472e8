import LiteralFill.Fill.Resolve

/-!
How resolution is put together. A name is looked up and what is found is resolved, a name of another package
waits for its import, and the type before a literal for the package beside it: each of these is one step after
another, so a property of all steps is proved for the parts.
-/

namespace LiteralFill

open Resolution (give stop forEach)

/-! ## One step after another -/

namespace Resolution

variable {α β γ : Type}

theorem bind_assoc (r : Resolution α) (f : α → Resolution β) (g : β → Resolution γ) :
    r >>= f >>= g = r >>= fun a => f a >>= g := by
  funext s
  show (r.andThen f).andThen g s = r.andThen (fun a => (f a).andThen g) s
  unfold andThen
  cases r s with
  | mk result s' => cases result <;> rfl

/-- A step after one that answers. -/
theorem bind_of_ok {r : Resolution α} {s s' : Session} {a : α} (h : r s = (.ok a, s'))
    (f : α → Resolution β) : (r >>= f) s = f a s' := by
  show r.andThen f s = f a s'
  unfold andThen
  rw [h]

/-- After a step that stops nothing more is done. -/
theorem bind_of_error {r : Resolution α} {s s' : Session} {e : ResolveError} (h : r s = (.error e, s'))
    (f : α → Resolution β) : (r >>= f) s = (.error e, s') := by
  show r.andThen f s = _
  unfold andThen
  rw [h]

/-- An answer after two steps is that of the second to that of the first. -/
theorem bind_ok {r : Resolution α} {f : α → Resolution β} {s s' : Session} {b : β}
    (h : (r >>= f) s = (.ok b, s')) : ∃ a s₁, r s = (.ok a, s₁) ∧ f a s₁ = (.ok b, s') := by
  change r.andThen f s = _ at h
  unfold andThen at h
  cases hstep : r s with
  | mk result s₁ =>
    rw [hstep] at h
    cases result with
    | error e => cases h
    | ok a => exact ⟨a, s₁, rfl, h⟩

/-- A step whose answer is changed. -/
def map (f : α → β) (r : Resolution α) : Resolution β := r >>= fun a => give (f a)

theorem map_bind (f : β → γ) (r : Resolution α) (g : α → Resolution β) :
    map f (r >>= g) = r >>= fun a => map f (g a) := bind_assoc ..

theorem bind_map (f : α → β) (r : Resolution α) (g : β → Resolution γ) :
    map f r >>= g = r >>= fun a => g (f a) := bind_assoc ..

theorem map_map (f : α → β) (g : β → γ) (r : Resolution α) : map g (map f r) = map (g ∘ f) r := bind_assoc ..

theorem map_id (r : Resolution α) : map id r = r := by
  funext s
  show r.andThen give s = r s
  unfold andThen
  cases r s with
  | mk result s' => cases result <;> rfl

/-- Changed answers of the steps for the elements of a list. -/
theorem map_forEach (f : β → γ) (g : α → Resolution β) (as : List α) :
    map (List.map f) (forEach g as) = forEach (fun a => map f (g a)) as := by
  induction as with
  | nil => rfl
  | cons a rest ih =>
    unfold forEach
    rw [map_bind, ← ih, bind_map]
    refine congrArg _ (funext fun b => ?_)
    rw [map_bind, bind_map]
    rfl

end Resolution

/-! ## Names -/

namespace Env

/-- A name that stands for a type without a declaration is a type parameter, or predeclared. -/
theorem lookupNear_type {env : Env} {name : String} {t : Ty} (h : env.lookupNear name = some (.type t)) :
    env.arguments.lookup name = some t ∨
      env.arguments.lookup name = none ∧ predeclaredType name = some t := by
  unfold lookupNear at h
  split at h
  · cases h
    exact .inl ‹_›
  · refine .inr ⟨‹_›, ?_⟩
    split at h
    · cases h
    · split at h
      · cases h
      · split at h
        · cases h
        · simpa using h

/-- A name is found near, or its declaration is looked for in the dot imports. -/
theorem lookup_cases (tree : FileTree) (env : Env) (name : String) :
    (∃ found, env.lookupNear name = some found ∧ env.lookup tree name = give (some found)) ∨
      env.lookup tree name = Resolution.map (Option.map .declaration)
        (Resolution.firstOf tree (fun _ p => siteIn p name none) (env.file.imports.filter (·.isDot))) := by
  unfold lookup
  cases env.lookupNear name with
  | some found => exact .inl ⟨found, rfl, rfl⟩
  | none => exact .inr rfl

end Env

/-! ## Declarations -/

/-- The declared type. -/
def Site.typeName (site : Site) : TypeName := ⟨site.path, site.name, site.decl.name⟩

/-- Which declaration it is. -/
def Site.place (site : Site) : Origin × TypeName × Nat := (site.origin, site.typeName, site.decl.span.start)

/-- The names visible inside an alias that is expanded. -/
def Env.expandingAlias (env : Env) (site : Site) (args : List Ty) : Env :=
  { env.inside site args with expanding := site.place :: env.expanding }

/-- The names visible inside a declared type that is looked into. -/
def Env.enteringType (env : Env) (site : Site) (args : List Ty) : Env :=
  { env.inside site args with visiting := site.typeName :: env.visiting, expanding := [] }

variable (tree : FileTree) (inner : Inner) (env : Env)

/-- The type that a declaration gives, once the types its parameters stand for are known. -/
def enterDeclared (site : Site) (args : List Ty) : Resolution Ty :=
  if site.decl.isAlias then
    if env.expanding.contains site.place then stop .endless
    else inner (env.expandingAlias site args) site.decl.type .value
  else if env.visiting.contains site.typeName then give (.unseen site.typeName)
  else inner (env.enteringType site args) site.decl.type .value >>= fun underlying =>
    give (.named site.typeName args underlying)

theorem resolveDeclared_eq (site : Site) (args : List TypeExpr) :
    resolveDeclared tree inner env site args =
      forEach (resolveArg tree inner env) args >>= enterDeclared inner env site := rfl

/-- What a name stands for, once it is looked up. -/
def resolveFound (name : String) (args : List TypeExpr) (mode : Mode) : Option Found → Resolution Ty
  | some (.type t) => give t
  | some (.declaration site) =>
    if mode = .spelled then spell inner env ⟨site.path, site.name, name⟩ args
    else resolveDeclared tree inner env site args
  | none =>
    if mode = .root then stop (.unresolved name)
    else spell inner env ⟨env.path, env.name, name⟩ args

theorem resolvePlain_eq (name : String) (args : List TypeExpr) (mode : Mode) :
    resolvePlain tree inner env name args mode =
      env.lookup tree name >>= resolveFound tree inner env name args mode := rfl

/-- The declaration of a name in an imported package. -/
def importedSite (name : String) : Option (String × String) → Resolution (Option Site)
  | some (path, _) => Resolution.map (fun package => package.bind (siteIn · name none))
    (Resolution.load tree path)
  | none => give none

/-- What a name of another package stands for, once its declaration is looked up. -/
def resolveSite (n : TypeName) (args : List TypeExpr) (mode : Mode) : Option Site → Resolution Ty
  | some site => resolveDeclared tree inner env site args
  | none =>
    if mode = .root then stop (.unresolved (n.package ++ "." ++ n.name))
    else spell inner env n args

/-- What a name of another package stands for, once its import is looked up. -/
def resolveImported (qualifier name : String) (args : List TypeExpr) (mode : Mode)
    (imported : Option (String × String)) : Resolution Ty :=
  if imported.map (·.1) = some "unsafe" && name = "Pointer" then give (.primitive .pointer)
  else if mode = .spelled then
    spell inner env ⟨(imported.map (·.1)).getD qualifier, (imported.map (·.2)).getD qualifier, name⟩ args
  else importedSite tree name imported >>=
    resolveSite tree inner env ⟨(imported.map (·.1)).getD qualifier, qualifier, name⟩ args mode

theorem resolveQualified_eq (qualifier name : String) (args : List TypeExpr) (mode : Mode) :
    resolveQualified tree inner env qualifier name args mode =
      env.importNamed tree qualifier >>= resolveImported tree inner env qualifier name args mode := by
  unfold resolveQualified
  refine congrArg _ (funext fun imported => ?_)
  unfold resolveImported
  split
  · rfl
  · split
    · cases imported <;> rfl
    · cases imported with
      | none => rfl
      | some i =>
        rw [importedSite, Resolution.bind_map]
        rfl

/-! ## Literals -/

/-- The package of the files beside the one of a literal. -/
def packageBeside (scope : Scope) : Resolution (Option Package) :=
  match scope.path.bind (·.parent) with
  | some dir => Resolution.loadDir tree dir
  | none => give none

/-- The import path that decides which fields of a literal may be set. -/
def decidingPath (scope : Scope) : Ty → String
  | .named n _ _ => n.path
  | _ => scope.packagePath

/-- The struct type that a type before a literal stands for. -/
def structOf (scope : Scope) (t : Ty) : Resolution ResolvedStruct :=
  match ResolvedStruct.ofType? t (decidingPath scope t) with
  | some r => give r
  | none =>
    let q := scope.file.qualifier scope.packagePath
    stop (.notAStruct (t.display q) (t.underlying.display q))

theorem resolveStruct_eq (scope : Scope) (type : TypeExpr) :
    resolveStruct tree scope type = packageBeside tree scope >>= fun package =>
      Resolution.andThen (resolveWithin tree (nestingBound tree scope.file) (scope.env package) type .root)
        (structOf scope) := by
  unfold resolveStruct packageBeside
  cases scope.path.bind (·.parent) <;> rfl

/-! ## Properties of all steps -/

/-- A property of steps that each simple step has, and that two steps one after another have if both have it. Only
the cancel flag makes a step stop as cancelled. -/
structure KeptBySteps (tree : FileTree) (P : {α : Type} → Resolution α → Prop) : Prop where
  give {α : Type} (a : α) : P (give a)
  stop {α : Type} {e : ResolveError} (he : e ≠ .cancelled) : P (stop e : Resolution α)
  bind {α β : Type} {r : Resolution α} {f : α → Resolution β} (hr : P r) (hf : ∀ a, P (f a)) : P (r >>= f)
  load (path : String) : P (Resolution.load tree path)
  loadDir (dir : Path) : P (Resolution.loadDir tree dir)

namespace KeptBySteps

variable {tree} {P : {α : Type} → Resolution α → Prop} (h : KeptBySteps tree P)
include h

theorem forEach {α β : Type} {f : α → Resolution β} (hf : ∀ a, P (f a)) (as : List α) :
    P (Resolution.forEach f as) := by
  induction as with
  | nil => exact h.give _
  | cons a rest ih => exact h.bind (hf a) fun _ => h.bind ih fun _ => h.give _

theorem firstOf {α : Type} (f : ImportSpec → Package → Option α) (imports : List ImportSpec) :
    P (Resolution.firstOf tree f imports) := by
  induction imports with
  | nil => exact h.give _
  | cons i rest ih =>
    refine h.bind (h.load i.path) fun package => ?_
    split
    · exact h.give _
    · exact ih

theorem lookup (env : Env) (name : String) : P (env.lookup tree name) := by
  unfold Env.lookup
  split
  · exact h.give _
  · exact h.bind (h.firstOf ..) fun _ => h.give _

theorem importNamed (env : Env) (qualifier : String) : P (env.importNamed tree qualifier) := by
  unfold Env.importNamed
  split
  · exact h.give _
  · exact h.firstOf ..

theorem importedSite (name : String) (imported : Option (String × String)) :
    P (LiteralFill.importedSite tree name imported) := by
  unfold LiteralFill.importedSite
  split
  · exact h.bind (h.load _) fun _ => h.give _
  · exact h.give _

section

variable {inner : Inner} (hinner : ∀ env type mode, P (inner env type mode))
include hinner

theorem spell (env : Env) (n : TypeName) (args : List TypeExpr) : P (LiteralFill.spell inner env n args) := by
  unfold LiteralFill.spell
  split
  · exact h.give _
  · exact h.bind (h.forEach (fun _ => hinner ..) _) fun _ => h.give _

theorem resolveArg (env : Env) (arg : TypeExpr) : P (LiteralFill.resolveArg tree inner env arg) := by
  unfold LiteralFill.resolveArg
  split
  · refine h.bind (h.lookup ..) fun found => ?_
    split
    · exact h.give _
    · exact hinner ..
  · exact hinner ..

theorem enterDeclared (env : Env) (site : Site) (args : List Ty) :
    P (LiteralFill.enterDeclared inner env site args) := by
  unfold LiteralFill.enterDeclared
  split
  · split
    · exact h.stop nofun
    · exact hinner ..
  · split
    · exact h.give _
    · exact h.bind (hinner ..) fun _ => h.give _

theorem resolveDeclared (env : Env) (site : Site) (args : List TypeExpr) :
    P (LiteralFill.resolveDeclared tree inner env site args) := by
  rw [resolveDeclared_eq]
  exact h.bind (h.forEach (h.resolveArg hinner env) args) fun args => h.enterDeclared hinner env site args

theorem resolveFound (env : Env) (name : String) (args : List TypeExpr) (mode : Mode) (found : Option Found) :
    P (LiteralFill.resolveFound tree inner env name args mode found) := by
  unfold LiteralFill.resolveFound
  split
  · exact h.give _
  · split
    · exact h.spell hinner ..
    · exact h.resolveDeclared hinner ..
  · split
    · exact h.stop nofun
    · exact h.spell hinner ..

theorem resolveSite (env : Env) (n : TypeName) (args : List TypeExpr) (mode : Mode) (site : Option Site) :
    P (LiteralFill.resolveSite tree inner env n args mode site) := by
  unfold LiteralFill.resolveSite
  split
  · exact h.resolveDeclared hinner ..
  · split
    · exact h.stop nofun
    · exact h.spell hinner ..

theorem resolveImported (env : Env) (qualifier name : String) (args : List TypeExpr) (mode : Mode)
    (imported : Option (String × String)) :
    P (LiteralFill.resolveImported tree inner env qualifier name args mode imported) := by
  unfold LiteralFill.resolveImported
  split
  · exact h.give _
  · split
    · exact h.spell hinner ..
    · exact h.bind (h.importedSite ..) fun _ => h.resolveSite hinner ..

theorem resolveForm (env : Env) (type : TypeExpr) (mode : Mode) :
    P (LiteralFill.resolveForm tree inner env type mode) := by
  cases type with
  | name qualifier name args =>
    cases qualifier with
    | none => exact h.bind (h.lookup ..) fun _ => h.resolveFound hinner ..
    | some q =>
      show P (resolveQualified tree inner env q name args mode)
      rw [resolveQualified_eq]
      exact h.bind (h.importNamed ..) fun _ => h.resolveImported hinner ..
  | pointer t => exact h.bind (hinner ..) fun _ => h.give _
  | slice t => exact h.bind (hinner ..) fun _ => h.give _
  | array l t => exact h.bind (hinner ..) fun _ => h.give _
  | map k v => exact h.bind (hinner ..) fun _ => h.bind (hinner ..) fun _ => h.give _
  | chan d t => exact h.bind (hinner ..) fun _ => h.give _
  | func text => exact h.give _
  | interface text => exact h.give _
  | struct decls => exact h.bind (h.forEach (fun _ => hinner ..) _) fun _ => h.give _

end

theorem resolveWithin (depth : Nat) (env : Env) (type : TypeExpr) (mode : Mode) :
    P (LiteralFill.resolveWithin tree depth env type mode) := by
  induction depth generalizing env type mode with
  | zero => exact h.stop nofun
  | succ depth ih => exact h.resolveForm ih env type mode

theorem packageBeside (scope : Scope) : P (LiteralFill.packageBeside tree scope) := by
  unfold LiteralFill.packageBeside
  split
  · exact h.loadDir _
  · exact h.give _

theorem structOf (scope : Scope) (t : Ty) : P (LiteralFill.structOf scope t) := by
  unfold LiteralFill.structOf
  split
  · exact h.give _
  · exact h.stop nofun

/-- What all steps keep holds of finding the struct type before a literal. -/
theorem resolveStruct (scope : Scope) (type : TypeExpr) : P (LiteralFill.resolveStruct tree scope type) := by
  rw [resolveStruct_eq]
  exact h.bind (h.packageBeside scope) fun _ => h.bind (h.resolveWithin ..) fun _ => h.structOf ..

end KeptBySteps

end LiteralFill
