import LiteralFill.Proofs.Fill.Cycles

/-!
Resolution ends, or an alias leads back to itself. No declared type and no alias is entered twice on the way to a type
inside them, so there is room for all of them within the bound for the depth. What is left is an alias that is met
while it is being expanded; then the recursion that does not watch its aliases has no end at any depth.
-/

namespace LiteralFill

open Resolution (give stop forEach Grows)

variable {α β : Type}

/-! ## Steps that come to an end -/

namespace Resolution

/-- A step that comes to an end, unless it needs packages beyond a memory. -/
structure EndsWithin (memory : PackageDb) (r : Resolution α) : Prop where
  step {s : Session} (h : (r s).2.packages.GrowsTo memory) : (r s).1 ≠ .error .endless

namespace EndsWithin

variable {memory : PackageDb}

theorem give (a : α) : EndsWithin memory (Resolution.give a) := ⟨fun _ => nofun⟩

theorem stop {e : ResolveError} (he : e ≠ .endless) : EndsWithin memory (Resolution.stop e : Resolution α) :=
  ⟨fun _ h => he (Except.error.inj h)⟩

theorem bind {r : Resolution α} {f : α → Resolution β} (hr : EndsWithin memory r) (hgrows : ∀ a, (f a).Grows)
    (hf : ∀ s a s', r s = (.ok a, s') → s'.packages.GrowsTo memory → EndsWithin memory (f a)) :
    EndsWithin memory (r >>= f) := by
  refine ⟨fun {s} h => ?_⟩
  cases hrun : r s with
  | mk result s' =>
    cases result with
    | error e =>
      rw [bind_of_error hrun] at h ⊢
      have hends := hr.step (s := s)
      rw [hrun] at hends
      exact fun he => hends h (congrArg Except.error (Except.error.inj he))
    | ok a =>
      rw [bind_of_ok hrun] at h ⊢
      exact (hf s a s' hrun (((hgrows a).step s').packages.trans h)).step h

theorem forEach {f : α → Resolution β} (hgrows : ∀ a, (f a).Grows) (as : List α)
    (hf : ∀ a ∈ as, EndsWithin memory (f a)) : EndsWithin memory (Resolution.forEach f as) := by
  induction as with
  | nil => exact give _
  | cons a rest ih =>
    refine .bind (hf a List.mem_cons_self) (fun _ => .bind (.forEach hgrows rest) fun _ => .give _) fun _ b _ _ _ => ?_
    exact .bind (ih fun c hc => hf c (List.mem_cons_of_mem a hc)) (fun _ => .give _) fun _ _ _ _ _ => give _

theorem checkCancelled : EndsWithin memory Resolution.checkCancelled := by
  refine ⟨fun _ => ?_⟩
  unfold Resolution.checkCancelled
  split <;> nofun

theorem load (tree : FileTree) (path : String) : EndsWithin memory (Resolution.load tree path) :=
  .bind checkCancelled (fun _ => .ask (PackageDb.load_growsTo tree path)) fun _ _ _ _ _ => ⟨fun _ => nofun⟩

theorem loadDir (tree : FileTree) (dir : Path) : EndsWithin memory (Resolution.loadDir tree dir) :=
  .bind checkCancelled (fun _ => .ask (PackageDb.loadDir_growsTo tree dir)) fun _ _ _ _ _ => ⟨fun _ => nofun⟩

theorem firstOf (tree : FileTree) (f : ImportSpec → Package → Option α) (imports : List ImportSpec) :
    EndsWithin memory (Resolution.firstOf tree f imports) := by
  induction imports with
  | nil => exact give none
  | cons i rest ih =>
    refine .bind (load tree i.path) (fun package => .orFirstOf tree f rest (package.bind (f i)))
      fun _ package _ _ _ => ?_
    cases package.bind (f i) with
    | none => exact ih
    | some a => exact give _

end EndsWithin

end Resolution

open Resolution (EndsWithin)

section

variable {memory : PackageDb} (tree : FileTree) (env : Env)

theorem Env.endsWithin_lookup (name : String) : EndsWithin memory (env.lookup tree name) := by
  unfold lookup
  split
  · exact .give _
  · exact .bind (.firstOf ..) (fun _ => .give _) fun _ _ _ _ _ => .give _

theorem Env.endsWithin_importNamed (q : String) : EndsWithin memory (env.importNamed tree q) := by
  unfold importNamed
  split
  · exact .give _
  · exact .firstOf ..

theorem endsWithin_importedSite (name : String) (imported : Option (String × String)) :
    EndsWithin memory (importedSite tree name imported) := by
  unfold importedSite
  split
  · exact .bind (.load ..) (fun _ => .give _) fun _ _ _ _ _ => .give _
  · exact .give _

/-- A declaration that a name stands for where these names are visible. -/
inductive Env.Finds : Site → Prop
  | plain {name : String} {site : Site} {s s' : Session}
      (h : env.lookup tree name s = (.ok (some (.declaration site)), s')) : Finds site
  | qualified {q name : String} {imported : Option (String × String)} {site : Site} {s s' s₁ s₁' : Session}
      (himported : env.importNamed tree q s = (.ok imported, s'))
      (h : importedSite tree name imported s₁ = (.ok (some site), s₁')) : Finds site

end

/-! ## Forms of types -/

section

variable {v : World} {inner : Inner} (hgrows : ∀ env type mode, (inner env type mode).Grows) {env : Env}
include hgrows

theorem endsWithin_spell (n : TypeName) (args : List TypeExpr)
    (hargs : ∀ a ∈ args, ∀ mode, EndsWithin v.memory (inner env a mode)) :
    EndsWithin v.memory (spell inner env n args) := by
  unfold spell
  split
  · exact .give _
  · exact .bind (.forEach (fun _ => hgrows ..) args fun a ha => hargs a ha .spelled) (fun _ => .give _)
      fun _ _ _ _ _ => .give _

theorem endsWithin_resolveArg (arg : TypeExpr) (harg : EndsWithin v.memory (inner env arg .value)) :
    EndsWithin v.memory (resolveArg v.tree inner env arg) := by
  by_cases hname : ∃ name, arg = .name none name []
  · obtain ⟨name, rfl⟩ := hname
    rw [resolveArg_name]
    refine .bind (env.endsWithin_lookup v.tree name) (fun found => ?_) fun _ found _ _ _ => ?_
    · cases found with
      | none => exact .give _
      | some _ => exact hgrows ..
    · cases found with
      | none => exact .give _
      | some _ => exact harg
  · rw [resolveArg_of_ne fun name hne => hname ⟨name, hne⟩]
    exact harg

variable (henter : ∀ site, env.Finds v.tree site → v.SiteIn site → ∀ args,
    EndsWithin v.memory (enterDeclared inner env site args))
include henter

theorem endsWithin_resolveDeclared {site : Site} (hfinds : env.Finds v.tree site) (hsite : v.SiteIn site)
    (args : List TypeExpr) (hargs : ∀ a ∈ args, ∀ mode, EndsWithin v.memory (inner env a mode)) :
    EndsWithin v.memory (resolveDeclared v.tree inner env site args) := by
  rw [resolveDeclared_eq]
  exact .bind (.forEach (grows_resolveArg hgrows env) args fun a ha => endsWithin_resolveArg hgrows a (hargs a ha .value))
    (grows_enterDeclared hgrows env site) fun _ args _ _ _ => henter site hfinds hsite args

variable (hfile : env.file ∈ v.sources)
include hfile

theorem endsWithin_resolveQualified (q name : String) (args : List TypeExpr) (mode : Mode)
    (hargs : ∀ a ∈ args, ∀ mode, EndsWithin v.memory (inner env a mode)) :
    EndsWithin v.memory (resolveQualified v.tree inner env q name args mode) := by
  rw [resolveQualified_eq]
  refine .bind (env.endsWithin_importNamed v.tree q) (grows_resolveImported hgrows env q name args mode)
    fun s imported s' himported hw => ?_
  unfold resolveImported
  split
  · exact .give _
  · split
    · exact endsWithin_spell hgrows _ args hargs
    · refine .bind (endsWithin_importedSite v.tree name imported) (grows_resolveSite hgrows env _ args mode)
        fun s₁ site s₁' hsite hw' => ?_
      cases site with
      | none =>
        unfold resolveSite
        dsimp only
        split
        · exact .stop nofun
        · exact endsWithin_spell hgrows _ args hargs
      | some site =>
        have hpath : ∀ i ∈ imported, i.1 ∈ v.importPaths := by
          rintro ⟨path, package⟩ rfl
          exact World.importNamed_path_mem hfile himported hw
        obtain ⟨p, hp, hfound⟩ := World.importedSite_declaration hpath hsite hw'
        exact endsWithin_resolveDeclared hgrows henter (.qualified himported hsite)
          (World.siteIn_of_mem hp hfound) args hargs

variable (henv : v.EnvIn env)
include henv

theorem endsWithin_resolvePlain (name : String) (args : List TypeExpr) (mode : Mode)
    (hargs : ∀ a ∈ args, ∀ mode, EndsWithin v.memory (inner env a mode)) :
    EndsWithin v.memory (resolvePlain v.tree inner env name args mode) := by
  rw [resolvePlain_eq]
  refine .bind (env.endsWithin_lookup v.tree name) (fun found => grows_resolveFound hgrows env name args mode found)
    fun s found s' hrun hw => ?_
  match found with
  | none =>
    unfold resolveFound
    dsimp only
    split
    · exact .stop nofun
    · exact endsWithin_spell hgrows _ args hargs
  | some (.type t) => exact .give t
  | some (.declaration site) =>
    unfold resolveFound
    dsimp only
    split
    · exact endsWithin_spell hgrows _ args hargs
    · exact endsWithin_resolveDeclared hgrows henter (.plain hrun) (henv.lookup hfile hrun hw) args hargs

theorem endsWithin_resolveForm (type : TypeExpr) (mode : Mode)
    (hparts : ∀ t ∈ type.parts, ∀ mode, EndsWithin v.memory (inner env t mode)) :
    EndsWithin v.memory (resolveForm v.tree inner env type mode) := by
  cases type with
  | name qualifier name args =>
    cases qualifier with
    | none => exact endsWithin_resolvePlain hgrows henter hfile henv name args mode hparts
    | some q => exact endsWithin_resolveQualified hgrows henter hfile q name args mode hparts
  | pointer t => exact .bind (hparts t (by simp [TypeExpr.parts]) _) (fun _ => .give _) fun _ _ _ _ _ => .give _
  | slice t => exact .bind (hparts t (by simp [TypeExpr.parts]) _) (fun _ => .give _) fun _ _ _ _ _ => .give _
  | array l t => exact .bind (hparts t (by simp [TypeExpr.parts]) _) (fun _ => .give _) fun _ _ _ _ _ => .give _
  | map k t =>
    refine .bind (hparts k (by simp [TypeExpr.parts]) _) (fun _ => .bind (hgrows ..) fun _ => .give _) fun _ _ _ _ _ => ?_
    exact .bind (hparts t (by simp [TypeExpr.parts]) _) (fun _ => .give _) fun _ _ _ _ _ => .give _
  | chan d t => exact .bind (hparts t (by simp [TypeExpr.parts]) _) (fun _ => .give _) fun _ _ _ _ _ => .give _
  | func text => exact .give _
  | interface text => exact .give _
  | struct decls =>
    exact .bind (.forEach (fun _ => hgrows ..) decls fun d hd => hparts d.type (List.mem_map_of_mem hd) _)
      (fun _ => .give _) fun _ _ _ _ _ => .give _

end

/-! ## Aliases -/

/-- The names visible at a literal, and inside each declaration that is entered from there on. -/
inductive Scope.Enters (tree : FileTree) (scope : Scope) (package : Option Package) : Env → Prop
  | literal : Enters tree scope package (scope.env package)
  | alias {env : Env} {site : Site} {args : List Ty} (h : Enters tree scope package env) (hfinds : env.Finds tree site)
      (halias : site.decl.isAlias = true) : Enters tree scope package (env.expandingAlias site args)
  | type {env : Env} {site : Site} {args : List Ty} (h : Enters tree scope package env) (hfinds : env.Finds tree site)
      (halias : site.decl.isAlias = false) : Enters tree scope package (env.enteringType site args)

/-- On the way from a literal an alias is met while it is being expanded. -/
def Scope.LeadsBack (tree : FileTree) (scope : Scope) (package : Option Package) : Prop :=
  ∃ env site, Scope.Enters tree scope package env ∧ env.Finds tree site ∧ site.decl.isAlias = true ∧
    site.place ∈ env.expanding

/-- Where no alias leads back to itself, resolution comes to an end within more depth than there is room for. -/
theorem endsWithin_resolver {v : World} {bound : Nat} (hpackages : ∀ p ∈ v.packages, p.FromTree v.tree)
    (hfiles : ∀ f ∈ v.sources, ∀ d ∈ f.types, d.type.Within bound)
    (hahead : ¬ Scope.LeadsBack v.tree v.scope v.beside) {depth k : Nat} {env : Env} (henv : v.Inside env)
    (hentered : Scope.Enters v.tree v.scope v.beside env) {type : TypeExpr} (htype : type.Within k)
    (hdepth : v.room env * bound + k ≤ depth) (mode : Mode) :
    EndsWithin v.memory (resolver v.tree true depth env type mode) := by
  induction depth generalizing env type mode k with
  | zero =>
    obtain rfl : k = 0 := by omega
    exact htype.elim
  | succ depth ih =>
    cases k with
    | zero => exact htype.elim
    | succ k =>
      have hfile : env.file ∈ v.sources := henv.names.holds.file_mem hpackages
      refine endsWithin_resolveForm (grows_resolver v.tree true depth) (fun site hfinds hsite args => ?_)
        hfile henv.names type mode fun t ht mode => ih henv hentered (htype t ht) (by omega) mode
      have hwithin : site.decl.type.Within bound := hfiles _ (hsite.holds.file_mem hpackages) _ hsite.decl
      show EndsWithin v.memory (enterDeclared (resolver v.tree true depth) (env.kept true) site args)
      cases halias : site.decl.isAlias with
      | true =>
        have hnew : site.place ∉ env.expanding := fun hseen => hahead ⟨env, site, hentered, hfinds, halias, hseen⟩
        rw [enterDeclared_alias args halias fun _ => hnew]
        exact ih (henv.expandingAlias hsite args hnew) (.alias hentered hfinds halias) hwithin
          (depth_inside (henv.room_expandingAlias hsite args hnew) hdepth) _
      | false =>
        by_cases hseen : site.typeName ∈ env.visiting
        · rw [enterDeclared_visiting args halias hseen]
          exact .give _
        · rw [enterDeclared_type args halias hseen]
          exact .bind (ih (henv.enteringType hsite args hseen) (.type hentered hfinds halias) hwithin
            (depth_inside (henv.room_enteringType hsite args hseen) hdepth) _) (fun _ => .give _) fun _ _ _ _ _ => .give _

/-! ## Literals -/

theorem endsWithin_packageBeside {memory : PackageDb} (tree : FileTree) (scope : Scope) :
    EndsWithin memory (packageBeside tree scope) := by
  unfold packageBeside
  split
  · exact .loadDir ..
  · exact .give _

theorem endsWithin_structOf {memory : PackageDb} (scope : Scope) (t : Ty) : EndsWithin memory (structOf scope t) := by
  unfold structOf
  split
  · exact .give _
  · exact .stop nofun

section

variable {tree : FileTree} {scope : Scope} {type : TypeExpr} {s s₁ : Session} {package : Option Package}
  (hbeside : packageBeside tree scope s = (.ok package, s₁))
include hbeside

/-- Finding a struct type has no end exactly when finding the type before the literal has none. -/
theorem resolveStructWithin_endless (guarded : Bool) (depth : Nat) :
    (resolveStructWithin tree guarded depth scope type s).1 = .error .endless ↔
      (resolver tree guarded depth (scope.env package) type .root s₁).1 = .error .endless := by
  unfold resolveStructWithin
  rw [Resolution.bind_of_ok hbeside]
  cases hrun : resolver tree guarded depth (scope.env package) type .root s₁ with
  | mk result s₂ =>
    cases result with
    | error e =>
      rw [Resolution.bind_of_error hrun]
      exact ⟨fun h => congrArg _ (Except.error.inj h), fun h => congrArg _ (Except.error.inj h)⟩
    | ok t =>
      rw [Resolution.bind_of_ok hrun]
      exact ⟨fun h => absurd h ((endsWithin_structOf scope t).step (.refl _)), nofun⟩

variable (hfile : ∃ text, scope.file = SourceFile.parse text) (hs : s.packages.FromTree tree)
include hfile hs

/-- What a run for the type before a literal starts from, and what it remembers in the end. -/
theorem sound_of_run (type : TypeExpr) (guarded : Bool) (depth : Nat) :
    World.Sound ⟨tree, scope, package, (resolver tree guarded depth (scope.env package) type .root s₁).2.packages⟩ where
  file := hfile
  beside := packageBeside_fromTree hbeside hs
  memory := by
    have hkeeps := (packageBeside_keepsSources tree scope).step hs
    rw [hbeside] at hkeeps
    exact (resolver_keepsSources tree guarded depth _ type .root).step hkeeps

variable (htype : ∃ l ∈ scope.file.literals, l.type = type)
include htype

/-- If resolution has no end within the bound, an alias leads back to itself. -/
theorem leadsBack_of_endless {depth : Nat} (hdepth : nestingBound tree scope.file ≤ depth)
    (hendless : (resolver tree true depth (scope.env package) type .root s₁).1 = .error .endless) :
    Scope.LeadsBack tree scope package := by
  by_contra hahead
  have hv := sound_of_run hbeside hfile hs type true depth
  obtain ⟨l, hl, rfl⟩ := htype
  obtain ⟨bound, hbounded, hroom⟩ := hv.exists_bound
  exact (endsWithin_resolver (fun p => hv.packages) (fun f hf => (hbounded f hf).declared) hahead World.inside_scope
    .literal ((hbounded _ List.mem_cons_self).literal l hl) ((hroom _).trans hdepth) .root).step (.refl _) hendless

/-- If resolution has no end within the bound, the recursion that is not guarded has none at any depth. -/
theorem unguarded_endless (hdown : s.FlagDown)
    (hendless : (resolveStructWithin tree true (nestingBound tree scope.file) scope type s).1 = .error .endless)
    (depth : Nat) : (resolveStructWithin tree false depth scope type s).1 = .error .endless := by
  by_contra hends
  have hdeep := Nat.le_max_left depth (nestingBound tree scope.file)
  have hbound := Nat.le_max_right depth (nestingBound tree scope.file)
  generalize max depth (nestingBound tree scope.file) = deep at hdeep hbound
  have hunguarded : (resolver tree false deep (scope.env package) type .root s₁).1 ≠ .error .endless := by
    have hshallow := mt (resolveStructWithin_endless hbeside false depth).mpr hends
    rwa [resolver_deeper hdeep hshallow]
  have hv := sound_of_run hbeside hfile hs type false deep
  have hdown : s₁.FlagDown := by
    have hgrows := (grows_packageBeside tree scope).step s
    rw [hbeside] at hgrows
    exact hgrows.flagDown hdown
  have hguarded := hv.guarded_ends hdown ⟨hunguarded, .refl _⟩
  rw [← resolveStructWithin_eq hfile htype hs (Nat.le_refl _) hbound (.inl rfl),
    resolveStructWithin_endless hbeside] at hendless
  exact hguarded hendless

end

/-- Resolution comes to an end within a depth that the sizes of all files bound, and finds what the recursion finds
that does not watch its aliases; or else that recursion has no end at any depth, and an alias leads back to itself. -/
theorem resolveStruct_ends_or_leadsBack {tree : FileTree} {scope : Scope} {type : TypeExpr} {s : Session}
    (hfile : ∃ text, scope.file = SourceFile.parse text) (htype : ∃ l ∈ scope.file.literals, l.type = type)
    (hs : s.packages.FromTree tree) (hdown : s.FlagDown) :
    ((resolveStruct tree scope type s).1 ≠ .error .endless ∧ ∀ depth, nestingBound tree scope.file ≤ depth →
        resolveStructWithin tree false depth scope type s = resolveStruct tree scope type s) ∨
      ((resolveStruct tree scope type s).1 = .error .endless ∧
        (∀ depth, (resolveStructWithin tree false depth scope type s).1 = .error .endless) ∧
        ∃ package, (packageBeside tree scope s).1 = .ok package ∧ Scope.LeadsBack tree scope package) := by
  simp only [resolveStruct_eq_within]
  by_cases hendless : (resolveStructWithin tree true (nestingBound tree scope.file) scope type s).1 = .error .endless
  · refine .inr ⟨hendless, ?_⟩
    cases hbeside : packageBeside tree scope s with
    | mk result s₁ =>
      cases result with
      | error e =>
        have hends : e ≠ .endless := fun he => by
          have hstep := (endsWithin_packageBeside tree scope).step (s := s) (.refl _)
          rw [hbeside, he] at hstep
          exact hstep rfl
        unfold resolveStructWithin at hendless
        rw [Resolution.bind_of_error hbeside] at hendless
        exact absurd (Except.error.inj hendless) hends
      | ok package =>
        refine ⟨unguarded_endless hbeside hfile hs htype hdown hendless, package, rfl, ?_⟩
        exact leadsBack_of_endless hbeside hfile hs htype (Nat.le_refl _)
          ((resolveStructWithin_endless hbeside _ _).mp hendless)
  · exact .inl ⟨hendless, fun depth hdepth =>
      resolveStructWithin_eq hfile htype hs (Nat.le_refl _) hdepth (.inr hendless)⟩

/-- An alias of itself. -/
def ownAliasText : List Char := "package p\ntype A = A\nvar x = A\x7b\x7d".toList

/-- The type before the literal is expanded for ever. -/
theorem resolveStruct_ownAlias :
    ∃ literal ∈ (SourceFile.parse ownAliasText).literals,
      let scope : Scope := ⟨.parse ownAliasText, none, "p", literal.lbrace⟩
      (∃ text, scope.file = SourceFile.parse text) ∧ (∃ l ∈ scope.file.literals, l.type = literal.type) ∧
      PackageDb.empty.FromTree default ∧ (Session.ofPackages .empty).FlagDown ∧
      (∀ depth, (resolveStructWithin default false depth scope literal.type (.ofPackages .empty)).1 = .error .endless) ∧
      ∃ package, (packageBeside default scope (.ofPackages .empty)).1 = .ok package ∧
        Scope.LeadsBack default scope package := by
  obtain ⟨literal, hliteral⟩ := List.length_eq_one_iff.mp
    (show (SourceFile.parse ownAliasText).literals.length = 1 by decide +kernel)
  have hmem : literal ∈ (SourceFile.parse ownAliasText).literals := by simp [hliteral]
  have hrun : ∀ l ∈ (SourceFile.parse ownAliasText).literals,
      (match (resolveStruct default ⟨.parse ownAliasText, none, "p", l.lbrace⟩ l.type (.ofPackages .empty)).1 with
        | .error e => e == .endless
        | .ok _ => false) = true := by
    decide +kernel
  have hendless : (resolveStruct default ⟨.parse ownAliasText, none, "p", literal.lbrace⟩ literal.type
      (.ofPackages .empty)).1 = .error .endless := by
    have hrun := hrun literal hmem
    split at hrun
    · next e he => rw [he, eq_of_beq hrun]
    · cases hrun
  have hs : PackageDb.empty.FromTree default := ⟨nofun, nofun⟩
  have hdown : (Session.ofPackages .empty).FlagDown := nofun
  refine ⟨literal, hmem, ⟨ownAliasText, rfl⟩, ⟨literal, hmem, rfl⟩, hs, hdown, ?_⟩
  rcases @resolveStruct_ends_or_leadsBack default ⟨.parse ownAliasText, none, "p", literal.lbrace⟩ literal.type
    (.ofPackages .empty) ⟨ownAliasText, rfl⟩ ⟨literal, hmem, rfl⟩ hs hdown with h | h
  · exact absurd hendless h.1
  · exact h.2

end LiteralFill
