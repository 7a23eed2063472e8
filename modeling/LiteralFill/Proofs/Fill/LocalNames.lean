import LiteralFill.Proofs.Fill.Steps
import LiteralFill.Proofs.Scopes

/-!
What the names of local types stand for. Resolution looks up every name at the position of the literal, also one
that is written inside a local type. Block scoping would look it up where it is written. The two find the same
declarations just when local types stand directly in the bodies of functions, those of one body under names of
their own, and no name that a local type mentions is declared anew where that type is in scope.
-/

namespace LiteralFill

/-! ## Names where they are written -/

/-- The type names this name, without a qualifier, at some place in it. -/
inductive TypeExpr.Mentions (name : String) : TypeExpr → Prop
  | here (args : List TypeExpr) : Mentions name (.name none name args)
  | part {t u : TypeExpr} (hu : u ∈ t.parts) (h : Mentions name u) : Mentions name t

/-- Where a local type is declared. -/
def Site.localPlace (site : Site) : Option Nat := if site.isLocal then some site.decl.span.start else none

namespace Env

/-- What a name stands for near outside functions. -/
def lookupOutside (env : Env) (name : String) : Option Found :=
  match env.file.packageType name with
  | some decl => some (env.siteHere decl false)
  | none =>
    match env.package.bind (siteIn · name env.skip) with
    | some site => some (.declaration { site with path := env.path, name := env.name })
    | none => (predeclaredType name).map .type

/-- What a name stands for near if this is the local type of the name. -/
def lookupAmong (env : Env) (decl : Option TypeDecl) (name : String) : Option Found :=
  match env.arguments.lookup name with
  | some t => some (.type t)
  | none =>
    match decl with
    | some decl => some (env.siteHere decl true)
    | none => env.lookupOutside name

/-- What a name stands for near if it is written at this place in the file, or outside functions. -/
def lookupScoped (env : Env) (place : Option Nat) (name : String) : Option Found :=
  env.lookupAmong (place.bind (env.file.scopedType name)) name

theorem lookupNear_eq (env : Env) (name : String) :
    env.lookupNear name = env.lookupAmong (env.offset.bind (env.file.localType name)) name := rfl

variable {env : Env} {name : String}

theorem lookupAmong_argument {t : Ty} (h : env.arguments.lookup name = some t) (decl : Option TypeDecl) :
    env.lookupAmong decl name = some (.type t) := by
  unfold lookupAmong
  rw [h]

/-- Outside functions no local declaration is found. -/
theorem lookupOutside_isLocal {site : Site} (h : env.lookupOutside name = some (.declaration site)) :
    site.isLocal = false := by
  unfold lookupOutside at h
  split at h
  · cases h
    rfl
  · split at h
    · next site' hsite =>
      cases h
      obtain ⟨p, -, hsite⟩ := Option.bind_eq_some_iff.mp hsite
      unfold siteIn at hsite
      split at hsite
      · obtain ⟨f, -, rfl⟩ := Option.map_eq_some_iff.mp hsite
        rfl
      · cases hsite
    · obtain ⟨t, -, ht⟩ := Option.map_eq_some_iff.mp h
      cases ht

theorem lookupAmong_local {decl : TypeDecl} (h : env.arguments.lookup name = none) :
    env.lookupAmong (some decl) name = some (env.siteHere decl true) := by
  unfold lookupAmong
  rw [h]

/-- A local declaration is found through the local type of its name. -/
theorem lookupAmong_declaration {decl : Option TypeDecl} {site : Site} (hlocal : site.isLocal = true)
    (h : env.lookupAmong decl name = some (.declaration site)) :
    ∃ d, decl = some d ∧ env.siteHere d true = .declaration site := by
  unfold lookupAmong at h
  split at h
  · cases h
  · cases decl with
    | some d => exact ⟨d, rfl, Option.some.inj h⟩
    | none =>
      rw [lookupOutside_isLocal h] at hlocal
      cases hlocal

/-- Different local types give a name different meanings. -/
theorem lookupAmong_inj (harguments : env.arguments.lookup name = none) {decl decl' : Option TypeDecl}
    (h : env.lookupAmong decl name = env.lookupAmong decl' name) : decl = decl' := by
  have hfound {d : TypeDecl} {e : Option TypeDecl}
      (hd : env.lookupAmong (some d) name = env.lookupAmong e name) : e = some d := by
    rw [lookupAmong_local harguments] at hd
    obtain ⟨d', rfl, hsite⟩ := lookupAmong_declaration rfl hd.symm
    cases hsite
    rfl
  cases decl with
  | some d => exact (hfound h).symm
  | none =>
    cases decl' with
    | some d => exact hfound h.symm
    | none => rfl

/-- Inside a declaration the names of its parameters stand for arguments. -/
theorem inside_lookup_eq_none (env : Env) (site : Site) (args : List Ty) (name : String) :
    (env.inside site args).arguments.lookup name = none ↔ name ∉ site.decl.params := by
  have hnames : ((env.inside site args).arguments.map (·.1)) = site.decl.params.reverse := by
    simp [inside, List.map_map, Function.comp_def]
  rw [List.lookup_eq_none_iff, ← List.mem_reverse, ← hnames, List.mem_map]
  constructor
  · rintro hnone ⟨e, he, rfl⟩
    simpa using hnone e he
  · intro hnone e he
    simpa using fun heq : name = e.1 => hnone ⟨e, he, heq.symm⟩

end Env

/-- The names visible at the places that resolution comes to: at the literal, and inside each declaration that it
meets there or further on. With each of them comes where the declaration stands if it is local, and which names
are written there. -/
inductive Scope.Visits (scope : Scope) (package : Option Package) : Env → Option Nat → (String → Prop) → Prop
  | literal : Visits scope package (scope.env package) (some scope.offset) fun _ => True
  | declaration {env inner : Env} {place : Option Nat} {named : String → Prop} {site : Site} {args : List Ty}
      (h : Visits scope package env place named)
      (hmet : site.isLocal → ∃ name, named name ∧ env.lookupNear name = some (.declaration site))
      (hinner : inner = env.expandingAlias site args ∨ inner = env.enteringType site args) :
      Visits scope package inner site.localPlace site.decl.type.Mentions

/-- Local types stand directly in the bodies of functions, in each of them under names of their own, and no name
that one of them mentions is declared anew where it is in scope. -/
structure SourceFile.PlainlyScoped (f : SourceFile) : Prop extends f.PlainBodies where
  settled : ∀ d ∈ f.types, ∀ name, d.type.Mentions name → name ∉ d.params → ∀ e ∈ f.types, e.scope.isSome →
    e.name = name → d.span.start < e.span.start → f.scopedType d.name e.span.start ≠ some d

/-- Wherever resolution comes to in a file, the names written there stand for what block scoping says. -/
def SourceFile.FollowsScopes (f : SourceFile) : Prop :=
  ∀ scope package env place named, scope.file = f → Scope.Visits scope package env place named →
    ∀ name, named name → env.lookupNear name = env.lookupScoped place name

/-! ## Plainly scoped files -/

/-- Names are looked up outside functions, or at the literal, where each name that is written at the place stands
for the same as at the place. -/
inductive Env.Placed (scope : Scope) (env : Env) : Option Nat → (String → Prop) → Prop
  | package (named : String → Prop) (hoffset : env.offset = none) : Placed scope env none named
  | body {place : Nat} {named : String → Prop} (hfile : env.file = scope.file) (hoffset : env.offset = some scope.offset)
      (hsame : ∀ name, named name → env.arguments.lookup name = none →
        scope.file.scopedType name scope.offset = scope.file.scopedType name place) :
      Placed scope env (some place) named

section

variable {scope : Scope} (hnested : scope.file.WellNested) (hplain : scope.file.PlainlyScoped)
include hnested hplain

/-- The local type of a name is the one that block scoping finds at the place. -/
theorem Env.Placed.localType_eq {env : Env} {place : Option Nat} {named : String → Prop}
    (h : env.Placed scope place named) {name : String} (hname : named name)
    (harguments : env.arguments.lookup name = none) :
    env.offset.bind (env.file.localType name) = place.bind (env.file.scopedType name) := by
  cases h with
  | package named hoffset => rw [hoffset, Option.bind_none, Option.bind_none]
  | body hfile hoffset hsame =>
    rw [hoffset, hfile, Option.bind_some, Option.bind_some, hplain.toPlainBodies.localType_eq hnested]
    exact hsame name hname harguments

theorem Scope.Visits.placed {package : Option Package} {env : Env} {place : Option Nat} {named : String → Prop}
    (h : scope.Visits package env place named) : env.Placed scope place named := by
  induction h with
  | literal => exact .body rfl rfl fun _ _ _ => rfl
  | @declaration env inner place named site args _ hmet hinner ih =>
    have hfields : inner.file = site.file ∧ inner.offset = (if site.isLocal then env.offset else none) ∧
        inner.arguments = (env.inside site args).arguments := by
      rcases hinner with rfl | rfl
      · exact ⟨rfl, rfl, rfl⟩
      · exact ⟨rfl, rfl, rfl⟩
    obtain ⟨hfile, hoffset, harguments⟩ := hfields
    cases hlocal : site.isLocal with
    | false =>
      have hplace : site.localPlace = none := by simp [Site.localPlace, hlocal]
      rw [hplace]
      exact .package _ (by simpa [hlocal] using hoffset)
    | true =>
      have hplace : site.localPlace = some site.decl.span.start := by simp [Site.localPlace, hlocal]
      rw [hplace]
      obtain ⟨name, hname, hfound⟩ := hmet hlocal
      rw [Env.lookupNear_eq] at hfound
      obtain ⟨d, hdecl, hsite⟩ := Env.lookupAmong_declaration hlocal hfound
      cases hsite
      cases ih with
      | package _ hnone =>
        rw [hnone] at hdecl
        cases hdecl
      | body hfile' hoffset' _ =>
        rw [hoffset', hfile', Option.bind_some, hplain.toPlainBodies.localType_eq hnested] at hdecl
        obtain ⟨hoffers, -⟩ := (SourceFile.scopedType_eq_some hnested).mp hdecl
        refine .body (hfile.trans hfile') (by simpa using hoffset.trans hoffset') fun written hwritten hnone => ?_
        cases hoffers.name_eq
        refine (SourceFile.scopedType_at_declaration_iff hnested).mpr ?_ scope.offset hdecl
        refine hplain.settled d hoffers.mem written hwritten ?_
        rw [harguments] at hnone
        exact (Env.inside_lookup_eq_none ..).mp hnone

theorem SourceFile.PlainlyScoped.lookupNear_eq {package : Option Package} {env : Env} {place : Option Nat}
    {named : String → Prop} (h : scope.Visits package env place named) {name : String} (hname : named name) :
    env.lookupNear name = env.lookupScoped place name := by
  cases harguments : env.arguments.lookup name with
  | some t => exact (Env.lookupAmong_argument harguments _).trans (Env.lookupAmong_argument harguments _).symm
  | none =>
    have hlocal := (h.placed hnested hplain).localType_eq hnested hplain hname harguments
    rw [Env.lookupNear_eq, hlocal]
    rfl

end

/-! ## Files that follow block scoping -/

namespace SourceFile.FollowsScopes

variable {f : SourceFile} (h : f.FollowsScopes)
include h

/-- At a literal the local type of a name is the one in scope. -/
theorem localType_eq (name : String) (x : Nat) : f.localType name x = f.scopedType name x := by
  let scope : Scope := ⟨f, none, "", x⟩
  have hlookup := h scope none _ _ _ rfl .literal name trivial
  exact @Env.lookupAmong_inj (scope.env none) name rfl _ _ hlookup

/-- Inside a local type that a literal stands for, a name is looked up as at its declaration. -/
theorem scopedType_eq {d : TypeDecl} {name : String} (hmentions : d.type.Mentions name)
    (hparam : name ∉ d.params) {x : Nat} (hfound : f.scopedType d.name x = some d) :
    f.scopedType name x = f.scopedType name d.span.start := by
  let scope : Scope := ⟨f, none, "", x⟩
  let site : Site := ⟨f, .buffer, none, d, scope.packagePath, f.package.getD "", true⟩
  have hmet : (scope.env none).lookupNear d.name = some (.declaration site) := by
    rw [Env.lookupNear_eq]
    show Env.lookupAmong _ (f.localType d.name x) d.name = _
    rw [h.localType_eq, hfound]
    rfl
  have hvisits : scope.Visits none ((scope.env none).enteringType site []) site.localPlace d.type.Mentions :=
    .declaration .literal (fun _ => ⟨d.name, trivial, hmet⟩) (.inr rfl)
  have hlookup := h scope none _ _ _ rfl hvisits name hmentions
  have hsame := Env.lookupAmong_inj ((Env.inside_lookup_eq_none (scope.env none) site [] name).mpr hparam) hlookup
  rw [← h.localType_eq]
  exact hsame

theorem plainlyScoped (hnested : f.WellNested) : f.PlainlyScoped where
  toPlainBodies := (localType_eq_scopedType_iff hnested).mp h.localType_eq
  settled _ _ _ hmentions hparam :=
    (scopedType_at_declaration_iff hnested).mp fun _ hfound => h.scopedType_eq hmentions hparam hfound

end SourceFile.FollowsScopes

/-- In a file that is read, resolution follows block scoping just when the local types of the file are plainly
scoped. -/
theorem SourceFile.followsScopes_iff (text : List Char) :
    (parse text).FollowsScopes ↔ (parse text).PlainlyScoped := by
  have hnested := wellNested_parse text
  constructor
  · exact fun h => h.plainlyScoped hnested
  · intro hplain scope package env place named hfile hvisits name hname
    rw [← hfile] at hnested hplain
    exact hplain.lookupNear_eq hnested hvisits hname

end LiteralFill
