import LiteralFill.Proofs.Fill.Families
import LiteralFill.Proofs.Packages.Overlay

/-!
What types stand for if one of the files of a tree imports a package under another name. They are of the same form over
both trees. The name of the import gets into the name of a type only if the type was looked for in the package and is not
declared there.
-/

namespace LiteralFill

open Resolution (give stop forEach Grows)

/-- A type that was looked for in the package of a path and is not declared there. -/
def PackageDb.LookedInVain (db : PackageDb) (path name : String) : Prop :=
  ∃ package, db.byPath.lookup path = some package ∧ package.bind (siteIn · name none) = none

/-! ## Steps -/

/-- Sessions over two trees that remember the same packages, but for the files, and have the same answers of the cancel
flag left. -/
structure Renaming.SessionsOver (c : Renaming) (s : Bool → Session) : Prop where
  packages : ∃ db, ∀ i, (s i).packages = c.dbOver i db
  cancel : ∃ cancel, ∀ i, (s i).cancel = cancel

/-- Two runs over two trees with a file in which a package has two names; nothing is claimed of what is not remembered
in the end. -/
def Frame.renaming (c : Renaming) (memory : PackageDb) : Frame Bool where
  together := c.SessionsOver
  lost s := ¬ (s false).packages.GrowsTo memory
  excused _ _ _ := False
  lost_grows := @not_growsTo_of_grows Bool memory false

namespace Renaming

variable {c : Renaming} {memory : PackageDb} {α : Type}

theorem SessionsOver.poll {s : Bool → Session} (h : c.SessionsOver s) :
    (∀ i, (s i).poll.1 = (s false).poll.1) ∧ c.SessionsOver fun i => (s i).poll.2 := by
  obtain ⟨⟨db, hdb⟩, cancel, hcancel⟩ := h
  have hpoll (i : Bool) : (s i).poll.1 = (cancel.head?).getD false ∧ (s i).poll.2.cancel = cancel.tail := by
    rw [← hcancel i]
    unfold Session.poll
    cases hcancel : (s i).cancel with
    | nil => exact ⟨rfl, hcancel⟩
    | cons up rest => exact ⟨rfl, rfl⟩
  refine ⟨fun i => (hpoll i).1.trans (hpoll false).1.symm, ⟨db, fun i => ?_⟩, _, fun i => (hpoll i).2⟩
  rw [Session.poll_packages, hdb]

theorem lockstep_checkCancelled :
    Lockstep (Frame.renaming c memory) (fun _ => Resolution.checkCancelled) fun _ _ => True :=
  .checkCancelled (fun _ hs => hs.cancel) fun _ hs => hs.poll.2

/-- A look-up among the packages that answers together and remembers the same over both trees. -/
theorem lockstep_ask {f : Bool → PackageDb → α × PackageDb} {Q : (Bool → α) → Prop}
    (hgrows : ∀ i (db : PackageDb), db.GrowsTo (f i db).2)
    (h : ∀ db, ∃ db', (∀ i, (f i (c.dbOver i db)).2 = c.dbOver i db') ∧
      ((f false (c.dbOver false db)).2.GrowsTo memory → Q fun i => (f i (c.dbOver i db)).1)) :
    Lockstep (Frame.renaming c memory) (fun i => Resolution.ask (f i)) fun a _ => Q a := by
  rintro s ⟨⟨db, hdb⟩, cancel, hcancel⟩
  have hpackages (i : Bool) : (Resolution.ask (f i) (s i)).2.packages = (f i (c.dbOver i db)).2 := by
    rw [← hdb]
    rfl
  obtain ⟨db', hdb', hanswer⟩ := h db
  by_cases hmemory : (f false (c.dbOver false db)).2.GrowsTo memory
  · have hsteps (i : Bool) : (s i).GrowsTo (Resolution.ask (f i) (s i)).2 := (Grows.ask (hgrows i)).step (s i)
    have htogether : c.SessionsOver fun i => (Resolution.ask (f i) (s i)).2 :=
      ⟨⟨db', fun i => (hpackages i).trans (hdb' i)⟩, cancel, hcancel⟩
    refine .answered htogether hsteps (hanswer hmemory) fun i => ?_
    dsimp only
    rw [← hdb]
    rfl
  · refine .lost ?_
    show ¬ (Resolution.ask (f false) (s false)).2.packages.GrowsTo memory
    rwa [hpackages]

/-- A package is loaded to the same over both trees, but for the files, and is remembered. -/
theorem lockstep_load (path : String) :
    Lockstep (Frame.renaming c memory) (fun i => Resolution.load (c.tree i) path) fun a _ =>
      ∃ p : Option Package, a = (fun i => p.map (c.packageOver i)) ∧
        memory.byPath.lookup path = some (p.map (c.packageOver false)) := by
  have hgrows (i : Bool) := PackageDb.load_growsTo (c.tree i) path
  refine lockstep_checkCancelled.bind (fun i _ => .ask (hgrows i)) fun _ s₁ _ _ => ?_
  refine (lockstep_ask hgrows fun db => ⟨(db.load (c.tree false) path).2, ?_, fun hmemory => ?_⟩).after s₁
  · intro i
    rw [c.load_over]
  · have hloaded := hmemory.byPath (PackageDb.load_remembered (c.tree false) path (c.dbOver false db))
    simp only [c.load_over] at hloaded ⊢
    exact ⟨_, rfl, hloaded⟩

theorem lockstep_loadDir (dir : Path) :
    Lockstep (Frame.renaming c memory) (fun i => Resolution.loadDir (c.tree i) dir) fun a _ =>
      ∃ p : Option Package, a = fun i => p.map (c.packageOver i) := by
  have hgrows (i : Bool) := PackageDb.loadDir_growsTo (c.tree i) dir
  refine lockstep_checkCancelled.bind (fun i _ => .ask (hgrows i)) fun _ s₁ _ _ => ?_
  refine (lockstep_ask hgrows fun db => ⟨(db.loadDir (c.tree false) dir).2, ?_, fun _ => ?_⟩).after s₁
  · intro i
    rw [c.loadDir_over]
  · simp only [c.loadDir_over]
    exact ⟨_, rfl⟩

/-- The imports of a file are gone through in step, if what is looked for in a package is found over both trees or over
none. -/
theorem lockstep_firstOf {f : ImportSpec → Package → Option α} {T : (Bool → α) → Prop}
    {specs : List (Bool → ImportSpec)} (hpath : ∀ spec ∈ specs, ∀ i, (spec i).path = (spec false).path)
    (hf : ∀ spec ∈ specs, ∀ p, (∀ i, f (spec i) (c.packageOver i p) = none) ∨
      ∃ a : Bool → α, (∀ i, f (spec i) (c.packageOver i p) = some (a i)) ∧ T a) :
    Lockstep (Frame.renaming c memory) (fun i => Resolution.firstOf (c.tree i) f (specs.map (· i))) fun a _ =>
      (∀ i, a i = none) ∨ ∃ b : Bool → α, (∀ i, a i = some (b i)) ∧ T b := by
  induction specs with
  | nil => exact .give fun _ _ => .inl fun _ => rfl
  | cons spec rest ih =>
    have hrest := ih (fun s hs => hpath s (List.mem_cons_of_mem spec hs)) fun s hs => hf s (List.mem_cons_of_mem spec hs)
    have hload : Lockstep (Frame.renaming c memory) (fun i => Resolution.load (c.tree i) (spec i).path) fun a _ =>
        ∃ p : Option Package, a = fun i => p.map (c.packageOver i) := by
      simp only [hpath spec List.mem_cons_self]
      exact (lockstep_load (spec false).path).weaken fun _ _ _ ⟨p, hp, _⟩ => ⟨p, hp⟩
    refine hload.bind (fun i package => ?_) ?_
    · split
      · exact .give _
      · exact .firstOf ..
    · rintro _ s₁ - ⟨package, rfl⟩
      have hfound : (∀ i, (package.map (c.packageOver i)).bind (f (spec i)) = none) ∨
          ∃ a : Bool → α, (∀ i, (package.map (c.packageOver i)).bind (f (spec i)) = some (a i)) ∧ T a := by
        cases package with
        | none => exact .inl fun _ => rfl
        | some p => exact hf spec List.mem_cons_self p
      rcases hfound with hnone | ⟨a, ha, hT⟩
      · simp only [hnone]
        exact hrest.after s₁
      · simp only [ha]
        exact .give fun _ _ => .inr ⟨a, fun _ => rfl, hT⟩

/-! ## Names -/

/-- Names of types over the two trees: the same, or with the two names of the package before a type that is not declared
in it. -/
def NamesOver (c : Renaming) (memory : PackageDb) (n : Bool → TypeName) : Prop :=
  Same n ∨ ∃ name, memory.LookedInVain c.path name ∧ n = fun i => ⟨c.path, c.name i, name⟩

/-- Types over the two trees. -/
abbrev TypesOver (c : Renaming) (memory : PackageDb) : (Bool → Ty) → Prop := TypesOf (c.NamesOver memory) FormsAlike

theorem namesTogether (c : Renaming) (memory : PackageDb) : NamesTogether (c.NamesOver memory) FormsAlike where
  same n := .inl ⟨n, rfl⟩
  text t := .inl ⟨t, rfl⟩
  key h := by
    rcases h with ⟨n, rfl⟩ | ⟨name, -, rfl⟩
    · exact ⟨(n.path, n.name), rfl⟩
    · exact ⟨(c.path, name), rfl⟩

/-- The names visible at a place, over two trees. -/
structure EnvOver where
  env : Env
  file : Bool → SourceFile
  package : Option Package
  arguments : List (String × (Bool → Ty))
  expanding : List (Bool → Origin × TypeName × Nat)

/-- The names visible over one of the trees. -/
def EnvOver.at (v : EnvOver) (c : Renaming) (i : Bool) : Env :=
  { v.env with
    file := v.file i
    package := v.package.map (c.packageOver i)
    arguments := v.arguments.map fun a => (a.1, a.2 i)
    expanding := v.expanding.map (· i) }

/-- The names are those of a file over the two trees, in which types are written as `P` says and what stands before them
is as `Q` says. -/
structure EnvOver.Valid (c : Renaming) (memory : PackageDb) (Q : (Bool → String) → Prop) (P : (Bool → TypeExpr) → Prop)
    (v : EnvOver) : Prop where
  file : c.FilesOver v.file v.env.origin v.env.offset Q P
  arguments : ∀ a ∈ v.arguments, c.TypesOver memory a.2
  expanding : ∀ p ∈ v.expanding, c.PlacesOver p

section

variable {Q : (Bool → String) → Prop} {P : (Bool → TypeExpr) → Prop} {v : EnvOver} (hv : v.Valid c memory Q P)
include hv

theorem lookupNear_over (name : String) : (∀ i, (v.at c i).lookupNear name = none) ∨
    ∃ found : Bool → Found, (∀ i, (v.at c i).lookupNear name = some (found i)) ∧
      ∀ s, FoundTogether (c.TypesOver memory) (fun site _ => c.SitesOver site) (fun i => some (found i)) s := by
  have hargument (i : Bool) : (v.arguments.map fun a => (a.1, a.2 i)).lookup name =
      (v.arguments.lookup name).map (· i) := lookup_map (fun t => t i) v.arguments name
  unfold Env.lookupNear
  simp only [EnvOver.at, hargument]
  cases hlookup : v.arguments.lookup name with
  | some t =>
    obtain ⟨l₁, l₂, hl, -⟩ := List.lookup_eq_some_iff.mp hlookup
    have ht : c.TypesOver memory t := hv.arguments (name, t) (by simp [hl])
    exact .inr ⟨fun i => .type (t i), fun _ => rfl, fun s => .type s ht⟩
  | none =>
    dsimp only [Option.map_none]
    rcases hv.file.localType name with hlocal | ⟨d, hd, hsite⟩
    · simp only [hlocal]
      rcases hv.file.packageType name with hdecl | ⟨d, hd, hsite⟩
      · simp only [hdecl]
        have hbeside : (∀ i, (v.package.map (c.packageOver i)).bind (siteIn · name v.env.skip) = none) ∨
            ∃ site : Bool → Site, (∀ i, (v.package.map (c.packageOver i)).bind (siteIn · name v.env.skip) =
              some (site i)) ∧ ∀ path name, c.SitesOver fun i => { site i with path, name } := by
          cases v.package with
          | none => exact .inl fun _ => rfl
          | some p => exact (c.siteIn_over p name v.env.skip).imp id fun ⟨site, hfound, _, hsite⟩ => ⟨site, hfound, hsite⟩
        rcases hbeside with hnone | ⟨site, hfound, hsite⟩
        · simp only [hnone]
          cases hpre : predeclaredType name with
          | none => exact .inl fun _ => rfl
          | some t =>
            have ht := (namesTogether c memory).formsTogether.plain (predeclaredType_plain hpre)
            exact .inr ⟨fun _ => .type t, fun _ => rfl, fun s => .type s ht⟩
        · simp only [hfound]
          exact .inr ⟨_, fun _ => rfl, fun s => .declaration (hsite v.env.path v.env.name)⟩
      · simp only [hd]
        exact .inr ⟨_, fun _ => rfl, fun s => .declaration (hsite none v.env.path v.env.name)⟩
    · simp only [hd]
      exact .inr ⟨_, fun _ => rfl, fun s => .declaration (hsite none v.env.path v.env.name)⟩

theorem lockstep_lookup (name : String) :
    Lockstep (Frame.renaming c memory) (fun i => (v.at c i).lookup (c.tree i) name)
      (FoundTogether (c.TypesOver memory) fun site _ => c.SitesOver site) := by
  unfold Env.lookup
  rcases lookupNear_over hv name with hnone | ⟨found, hfound, htogether⟩
  · obtain ⟨specs, hspecs, hpath⟩ := hv.file.dotImports
    have hfile (i : Bool) : (v.at c i).file.imports.filter (·.isDot) = specs.map (· i) := hspecs i
    simp only [hnone, hfile]
    refine (lockstep_firstOf (T := c.SitesOver) hpath fun _ _ p => ?_).bind (fun _ _ => .give _) fun site s₁ _ hsite => ?_
    · exact (c.siteIn_over p name none).imp id fun ⟨site, hfound, hsite, _⟩ => ⟨site, hfound, hsite⟩
    · rcases hsite with hnone | ⟨site, hfound, hsite⟩
      · simp only [hnone]
        exact .give fun s _ => .none s
      · simp only [hfound]
        exact .give fun _ _ => .declaration hsite
  · simp only [hfound]
    exact .give fun s _ => htogether s

/-- What stands before a type stands for one path over both trees, and is the same if it stands for none. -/
theorem lockstep_importNamed {q : Bool → String} (hq : Q q) :
    Lockstep (Frame.renaming c memory) (fun i => (v.at c i).importNamed (c.tree i) (q i)) fun a _ =>
      ∃ b : Option (String × String), (Same q ∨ q = c.name ∧ b.map (·.1) = some c.path) ∧ a = fun _ => b := by
  have hfound (i : Bool) {path : String} (h : ((v.file i).importByName (q i)).map (·.path) = some path) :
      (v.at c i).importNamed (c.tree i) (q i) = give (some (path, defaultPackageName path)) := by
    obtain ⟨spec, hspec, rfl⟩ := Option.map_eq_some_iff.mp h
    unfold Env.importNamed
    rw [show (v.at c i).file.importByName (q i) = some spec from hspec]
    rfl
  rcases hv.file.importByName hq with ⟨hname, hpath⟩ | ⟨⟨s, rfl⟩, path, hpath⟩
  · simp only [hfound _ (hpath _)]
    exact .give fun _ _ => ⟨_, .inr ⟨hname, rfl⟩, rfl⟩
  · cases path with
    | some path =>
      simp only [hfound _ (hpath _)]
      exact .give fun _ _ => ⟨_, .inl ⟨s, rfl⟩, rfl⟩
    | none =>
      obtain ⟨specs, hspecs, hsame⟩ := hv.file.plainImports
      have hnone (i : Bool) : (v.at c i).importNamed (c.tree i) s = Resolution.firstOf (c.tree i)
          (fun i p => if p.name == s then some (i.path, p.name) else none) (specs.map (· i)) := by
        unfold Env.importNamed
        rw [show (v.at c i).file.importByName s = none from Option.map_eq_none_iff.mp (hpath i), ← hspecs i]
        rfl
      simp only [hnone]
      refine (lockstep_firstOf (T := Same) hsame fun spec hspec p => ?_).weaken fun a _ _ ha => ?_
      · have hname (i : Bool) : (c.packageOver i p).name = p.name := rfl
        simp only [hname, hsame spec hspec]
        split
        · exact .inr ⟨_, fun _ => rfl, _, rfl⟩
        · exact .inl fun _ => rfl
      · rcases ha with ha | ⟨b, hb, b', rfl⟩
        · exact ⟨none, .inl ⟨s, rfl⟩, funext ha⟩
        · exact ⟨some b', .inl ⟨s, rfl⟩, funext hb⟩

end

/-- The declaration of a type in an imported package; if there is none, the name of the type may differ. -/
theorem lockstep_importedSite {q : Bool → String} (name : String) {imported : Option (String × String)}
    (h : Same q ∨ q = c.name ∧ imported.map (·.1) = some c.path) :
    Lockstep (Frame.renaming c memory) (fun i => importedSite (c.tree i) name imported) fun site s =>
      SitesTogether (fun site _ => c.SitesOver site) site s ∧
        ((∀ i, site i = none) → c.NamesOver memory fun i => ⟨(imported.map (·.1)).getD (q i), q i, name⟩) := by
  unfold importedSite
  cases imported with
  | none =>
    rcases h with ⟨s, rfl⟩ | ⟨-, hpath⟩
    · exact .give fun s' _ => ⟨.none s', fun _ => .inl ⟨_, rfl⟩⟩
    · cases hpath
  | some import' =>
    obtain ⟨path, package⟩ := import'
    refine (lockstep_load path).bind (fun _ _ => .give _) ?_
    rintro _ s₁ - ⟨package, rfl, hmemory⟩
    have hsite : (∀ i, (package.map (c.packageOver i)).bind (siteIn · name none) = none) ∨ ∃ site : Bool → Site,
        (∀ i, (package.map (c.packageOver i)).bind (siteIn · name none) = some (site i)) ∧ c.SitesOver site := by
      cases package with
      | none => exact .inl fun _ => rfl
      | some p => exact (c.siteIn_over p name none).imp id fun ⟨site, hfound, hsite, _⟩ => ⟨site, hfound, hsite⟩
    rcases hsite with hnone | ⟨site, hfound, hsite⟩
    · refine .give fun s' _ => ⟨?_, fun _ => ?_⟩
      · simp only [hnone]
        exact .none s'
      · rcases h with ⟨s, rfl⟩ | ⟨rfl, hpath⟩
        · exact .inl ⟨_, rfl⟩
        · obtain rfl : path = c.path := by simpa using hpath
          exact .inr ⟨name, ⟨_, hmemory, hnone false⟩, rfl⟩
    · refine .give fun s' _ => ⟨?_, fun hnone => ?_⟩
      · simp only [hfound]
        exact .some hsite
      · have hsome := hnone false
        simp only [hfound] at hsome
        cases hsome

/-! ## Types -/

/-- Inside a declaration over the two trees the names are those of its file. -/
theorem inside_over {Q : (Bool → String) → Prop} {P : (Bool → TypeExpr) → Prop} {v : EnvOver}
    (hv : v.Valid c memory Q P) {site : Bool → Site} (hsite : c.SitesOver site) {args : List (Bool → Ty)}
    (hargs : ∀ a ∈ args, c.TypesOver memory a) : ∃ (v' : EnvOver) (Q' : (Bool → String) → Prop)
      (P' : (Bool → TypeExpr) → Prop), v'.Valid c memory Q' P' ∧ P' (fun i => (site i).decl.type) ∧
      ∀ i, (v.at c i).inside (site i) (args.map (· i)) = v'.at c i := by
  obtain @⟨file, origin, Q', P', isLocal, hfile, d, htype, hhead, hplace, package, path, name⟩ := hsite
  let arguments : List (String × (Bool → Ty)) := ((d false).params.zipIdx.map fun p =>
    (p.1, fun i => ((args.map (· i))[p.2]?).getD (.param p.1))).reverse
  refine ⟨⟨{ v.env with origin, path, name, offset := if isLocal then v.env.offset else none }, file,
    package.orElse fun _ => v.package, arguments, v.expanding⟩, Q', P', ⟨hfile _, fun a ha => ?_, hv.expanding⟩, htype,
    fun i => ?_⟩
  · obtain ⟨⟨param, k⟩, -, rfl⟩ := List.mem_map.mp (List.mem_reverse.mp ha)
    simp only [List.getElem?_map]
    cases harg : args[k]? with
    | none => exact .param param
    | some t => exact hargs t (List.mem_of_getElem? harg)
  · have hpackage : ((package.map (c.packageOver i)).orElse fun _ => v.package.map (c.packageOver i)) =
        (package.orElse fun _ => v.package).map (c.packageOver i) := by
      cases package <;> rfl
    simp only [Env.inside, EnvOver.at, hpackage, (hhead i).2.1, arguments, List.map_reverse, List.map_map]
    rfl

/-- A declaration is entered in step if types are resolved in step inside of it. -/
theorem lockstep_enter {inner : Bool → Inner} {Q : (Bool → String) → Prop} {P : (Bool → TypeExpr) → Prop} {v : EnvOver}
    (hv : v.Valid c memory Q P) {site : Bool → Site} (hsite : c.SitesOver site) {args : List (Bool → Ty)}
    (hargs : ∀ a ∈ args, c.TypesOver memory a)
    (hinner : ∀ {Q : (Bool → String) → Prop} {P : (Bool → TypeExpr) → Prop} {v : EnvOver}, v.Valid c memory Q P →
      ∀ type, P type → Lockstep (Frame.renaming c memory) (fun i => inner i (v.at c i) (type i) .value)
        fun t _ => c.TypesOver memory t) :
    Lockstep (Frame.renaming c memory) (fun i => enterDeclared (inner i) (v.at c i) (site i) (args.map (· i)))
      fun t _ => c.TypesOver memory t := by
  obtain ⟨v', Q', P', hv', htype', hinside⟩ := inside_over hv hsite hargs
  obtain ⟨hplace, hsame⟩ := hsite.place
  have halias (i : Bool) : (v.at c i).expandingAlias (site i) (args.map (· i)) =
      EnvOver.at { v' with expanding := (fun i => (site i).place) :: v.expanding } c i := by
    unfold Env.expandingAlias
    rw [hinside]
    rfl
  have htypeName (i : Bool) : (v.at c i).enteringType (site i) (args.map (· i)) =
      EnvOver.at { v' with
        env := { v'.env with visiting := (site false).typeName :: v.env.visiting }, expanding := [] } c i := by
    unfold Env.enteringType
    rw [hinside, (hsame i).2]
    rfl
  have henter (i : Bool) : enterDeclared (inner i) (v.at c i) (site i) (args.map (· i)) =
      if (site false).decl.isAlias then
        if (v.expanding.map (· false)).contains (site false).place then stop .endless
        else inner i
          (EnvOver.at { v' with expanding := (fun i => (site i).place) :: v.expanding } c i) (site i).decl.type .value
      else if v.env.visiting.contains (site false).typeName then give (.unseen (site false).typeName)
      else inner i (EnvOver.at { v' with
          env := { v'.env with visiting := (site false).typeName :: v.env.visiting }, expanding := [] } c i)
          (site i).decl.type .value >>= fun underlying =>
        give (.named (site false).typeName (args.map (· i)) underlying) := by
    unfold enterDeclared
    rw [halias, htypeName, (hsame i).1, (hsame i).2, ← PlacesOver.contains hv.expanding hplace i]
    rfl
  simp only [henter]
  split
  · split
    · exact .stop _
    · have hexpanded : EnvOver.Valid c memory Q' P'
          { v' with expanding := (fun i => (site i).place) :: v.expanding } := by
        refine ⟨hv'.file, hv'.arguments, fun p hp => ?_⟩
        rcases List.mem_cons.mp hp with rfl | hp
        · exact hplace
        · exact hv.expanding p hp
      exact hinner hexpanded _ htype'
  · split
    · exact .give fun _ _ => .unseen (.inl ⟨_, rfl⟩)
    · have hentered : EnvOver.Valid c memory Q' P' { v' with
          env := { v'.env with visiting := (site false).typeName :: v.env.visiting }, expanding := [] } :=
        ⟨hv'.file, hv'.arguments, nofun⟩
      refine (hinner hentered _ htype').bind (fun _ _ => .give _) fun _ _ _ ht => ?_
      exact .give fun _ _ => .named _ hargs ht

/-- Over the two trees types are resolved to types of the same form. -/
theorem lockstep_resolveWithin (depth : Nat) {Q : (Bool → String) → Prop} {P : (Bool → TypeExpr) → Prop} {v : EnvOver}
    (hv : v.Valid c memory Q P) {type : Bool → TypeExpr} (htype : P type) {mode : Mode}
    (hmode : mode = .root → ∀ q, Q q → Same q) :
    Lockstep (Frame.renaming c memory) (fun i => resolveWithin (c.tree i) depth (v.at c i) (type i) mode)
      fun t _ => c.TypesOver memory t := by
  induction depth generalizing Q P v type mode with
  | zero => exact .stop .endless
  | succ depth ih =>
    have hstep : InStepAs (Frame.renaming c memory) (c.TypesOver memory) (fun site _ => c.SitesOver site) Q FormsAlike
        (fun q imported => Same q ∨ q = c.name ∧ imported.map (·.1) = some c.path) (c.NamesOver memory) c.tree
        (fun i => resolveWithin (c.tree i) depth) (v.at c) := {
      grows := fun i => grows_resolveWithin (c.tree i) depth
      types := (namesTogether c memory).formsTogether
      func := .func
      interface := .interface
      unseen := .unseen
      spelled := fun hn args hargs => .spelled hn hargs
      same := fun n => .inl ⟨n, rfl⟩
      name := ⟨(v.env.path, v.env.name), rfl⟩
      length := fun l => by
        cases l with
        | number n => exact ⟨_, rfl⟩
        | ellipsis => exact ⟨_, rfl⟩
        | expression text =>
          obtain ⟨n, hn⟩ := hv.file.packageConst text
          obtain ⟨m, hm⟩ : ∃ m, ∀ i, (v.package.map (c.packageOver i)).bind (·.findConst text) = m := by
            cases v.package with
            | none => exact ⟨none, fun _ => rfl⟩
            | some p => exact c.findConst_over p text
          unfold Env.arrayLength
          simp only [EnvOver.at, hn, hm]
          exact ⟨_, rfl⟩
      lookup := lockstep_lookup hv
      importNamed := lockstep_importNamed hv
      qualifier := fun hq => by
        rcases hq with hsame | ⟨-, hpath⟩
        · exact hsame
        · cases hpath
      imported := fun name _ hi => lockstep_importedSite name hi
      site := by
        rintro _ _ ⟨_, _, _, _, package, path, name⟩
        exact ⟨(path, name), rfl⟩
      enter := by
        intro site s args _ hsite hargs
        exact (lockstep_enter hv hsite hargs fun hv _ ht => ih hv ht (by simp)).after s }
    refine hstep.form hmode ((hv.file.form htype).imp fun t ht => ⟨hv.file.argument ht, fun hmode => ?_⟩)
    exact ih hv ht fun hroot => absurd hroot hmode

end Renaming

end LiteralFill
