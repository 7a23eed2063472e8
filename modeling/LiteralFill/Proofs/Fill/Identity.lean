import LiteralFill.Proofs.Fill.Endless
import LiteralFill.Proofs.Fill.LocalNames

/-!
What a declaration is known by. An alias that is being expanded is known by the file it stands in, the names its
package goes by and its position there. That is enough: a run never comes to two declarations at one place, and the
names that are visible inside the one at a place are the same whenever the run comes to it.
-/

namespace LiteralFill

/-! ## Packages and files -/

namespace Package

variable {tree : FileTree} {p q : Package}

theorem standard_known {path : String} (h : standard path = some p) : p.path = path ∧ p.dir = none := by
  obtain ⟨text, -, rfl⟩ := Option.map_eq_some_iff.mp h
  exact ⟨rfl, rfl⟩

theorem read_known {path : String} {dir : Path} (h : read tree path dir = some p) :
    p.path = path ∧ p.dir = some dir := by
  unfold read at h
  split at h
  · cases h
  · dsimp only at h
    split at h
    · cases h
    · cases h
      exact ⟨rfl, rfl⟩

theorem read_texts {path : String} {dir : Path} (h : read tree path dir = some p) {f : PackageFile}
    (hf : f ∈ p.files) : ∃ q text, f.path = some q ∧ tree.readText q = some text ∧
      f.source = SourceFile.parse text.toList := by
  unfold read at h
  split at h
  · cases h
  · dsimp only at h
    split at h
    · cases h
    · cases h
      obtain ⟨q, -, hq⟩ := List.mem_filterMap.mp hf
      obtain ⟨text, htext, rfl⟩ := Option.map_eq_some_iff.mp hq
      exact ⟨q, text, rfl, htext, rfl⟩

theorem dir_inj {a b : Option Path} (h : a.map (·.text) = b.map (·.text)) : a = b :=
  Option.map_injective (fun ⟨_⟩ ⟨_⟩ htext => congrArg Path.mk htext) h

/-- A package of a tree is known by its import path and its directory. -/
theorem FromTree.eq (hp : p.FromTree tree) (hq : q.FromTree tree) (hpath : p.path = q.path)
    (hdir : p.dir.map (·.text) = q.dir.map (·.text)) : p = q := by
  have hdir := dir_inj hdir
  obtain ⟨path, hp | ⟨dir, hp⟩⟩ := hp
  · obtain ⟨rfl, hnone⟩ := standard_known hp
    obtain ⟨path', hq | ⟨dir', hq⟩⟩ := hq
    · obtain ⟨rfl, -⟩ := standard_known hq
      rw [hpath] at hp
      exact Option.some.inj (hp.symm.trans hq)
    · rw [hnone, (read_known hq).2] at hdir
      cases hdir
  · obtain ⟨rfl, hsome⟩ := read_known hp
    obtain ⟨path', hq | ⟨dir', hq⟩⟩ := hq
    · rw [hsome, (standard_known hq).2] at hdir
      cases hdir
    · obtain ⟨rfl, hsome'⟩ := read_known hq
      obtain rfl : dir = dir' := Option.some.inj (hsome.symm.trans (hdir.trans hsome'))
      rw [hpath] at hp
      exact Option.some.inj (hp.symm.trans hq)

/-- A file of a package is known by its path. -/
theorem FromTree.source_eq (hp : p.FromTree tree) {f g : PackageFile} (hf : f ∈ p.files) (hg : g ∈ p.files)
    (hpath : f.path.map (·.text) = g.path.map (·.text)) : f.source = g.source := by
  have hpath := dir_inj hpath
  obtain ⟨path, hp | ⟨dir, hp⟩⟩ := hp
  · obtain ⟨source, -, hfiles⟩ := standard_files hp
    rw [hfiles, List.mem_singleton] at hf hg
    rw [hf, hg]
  · obtain ⟨a, text, ha, htext, hfsource⟩ := read_texts hp hf
    obtain ⟨b, text', hb, htext', hgsource⟩ := read_texts hp hg
    obtain rfl : a = b := Option.some.inj (ha.symm.trans (hpath.trans hb))
    obtain rfl : text = text' := Option.some.inj (htext.symm.trans htext')
    exact hfsource.trans hgsource.symm

end Package

/-! ## Declarations -/

namespace World

variable (v : World)

/-- The package that is looked into in a file. -/
inductive Belongs : Origin → Option Package → Prop
  | buffer : Belongs .buffer v.beside
  | member {p : Package} (hp : p ∈ v.packages) (file : Option String) :
    Belongs (.member p.path (p.dir.map (·.text)) file) (some p)

/-- The names that are visible in a file that can be met, at the literal or outside functions. -/
structure EnvAt (env : Env) : Prop where
  names : v.EnvIn env
  package : v.Belongs env.origin env.package
  skip : env.skip = v.scope.path
  offset : ∀ x ∈ env.offset, x = v.scope.offset

/-- A declaration that is found where these names are visible. Local types are found at the literal. -/
structure SiteAt (env : Env) (site : Site) : Prop where
  names : v.SiteIn site
  package : v.Belongs site.origin (site.package.orElse fun _ => env.package)
  isLocal : site.isLocal = site.decl.scope.isSome
  offset : site.isLocal → env.offset = some v.scope.offset

variable {v} {env env' : Env} {site site' : Site}

theorem envAt_scope : v.EnvAt (v.scope.env v.beside) where
  names := inside_scope.names
  package := .buffer
  skip := rfl
  offset := by
    rintro _ ⟨⟩
    rfl

/-- The same names inside declarations that are being looked into. -/
theorem EnvAt.within (h : v.EnvAt env) (visiting : List TypeName) (expanding : List (Origin × TypeName × Nat)) :
    v.EnvAt { env with visiting, expanding } :=
  ⟨⟨h.names.holds, h.names.package, h.names.label⟩, h.package, h.skip, h.offset⟩

theorem EnvAt.inside (h : v.EnvAt env) (hs : v.SiteAt env site) (args : List Ty) : v.EnvAt (env.inside site args) where
  names := h.names.inside hs.names args
  package := hs.package
  skip := h.skip
  offset := by
    intro x hx
    change x ∈ (if site.isLocal then env.offset else none) at hx
    split at hx
    · exact h.offset x hx
    · cases hx

theorem EnvAt.expandingAlias (h : v.EnvAt env) (hs : v.SiteAt env site) (args : List Ty) :
    v.EnvAt (env.expandingAlias site args) := (h.inside hs args).within ..

theorem EnvAt.enteringType (h : v.EnvAt env) (hs : v.SiteAt env site) (args : List Ty) :
    v.EnvAt (env.enteringType site args) := (h.inside hs args).within ..

/-! ## Look-ups -/

theorem packageType_scope {f : SourceFile} {name : String} {d : TypeDecl} (h : f.packageType name = some d) :
    d.scope = none := by
  obtain ⟨e, he, rfl⟩ := Option.map_eq_some_iff.mp h
  have hfound := List.find?_some he
  simp only [Bool.and_eq_true, Option.isNone_iff_eq_none] at hfound
  exact hfound.1

/-- A declaration of a package is found in one of its files, outside functions. -/
theorem siteIn_known {p : Package} {name : String} {skip : Option Path} (h : LiteralFill.siteIn p name skip = some site) :
    site.package = some p ∧ (∃ file, site.origin = .member p.path (p.dir.map (·.text)) file) ∧
      site.isLocal = false ∧ site.decl.scope = none := by
  unfold LiteralFill.siteIn at h
  split at h
  · next index decl hfound =>
    obtain ⟨f, -, rfl⟩ := Option.map_eq_some_iff.mp h
    obtain ⟨⟨g, i⟩, -, hdecl⟩ := List.exists_of_findSome?_eq_some hfound
    dsimp only at hdecl
    split at hdecl
    · cases hdecl
    · obtain ⟨d, htype, hpair⟩ := Option.map_eq_some_iff.mp hdecl
      cases hpair
      exact ⟨rfl, ⟨_, rfl⟩, rfl, packageType_scope htype⟩
  · cases h

theorem siteAt_of_mem (env : Env) {p : Package} (hp : p ∈ v.packages) {name : String} {skip : Option Path}
    (h : LiteralFill.siteIn p name skip = some site) : v.SiteAt env site := by
  obtain ⟨hpackage, ⟨file, horigin⟩, hlocal, hscope⟩ := siteIn_known h
  constructor
  · exact siteIn_of_mem hp h
  · rw [hpackage, horigin]
    exact .member hp file
  · rw [hlocal, hscope]
    rfl
  · intro h
    rw [hlocal] at h
    cases h

theorem EnvAt.lookupNear (h : v.EnvAt env) {name : String} (hfound : env.lookupNear name = some (.declaration site)) :
    v.SiteAt env site := by
  have hnames := h.names.lookupNear hfound
  rw [Env.lookupNear_eq] at hfound
  unfold Env.lookupAmong at hfound
  split at hfound
  · cases hfound
  · split at hfound
    · next decl hlocal =>
      cases hfound
      obtain ⟨x, hx, hlocal⟩ := Option.bind_eq_some_iff.mp hlocal
      obtain rfl := h.offset x hx
      refine ⟨hnames, h.package, ?_, fun _ => hx⟩
      exact (SourceFile.reaches_of_localType hlocal).isLocal.symm
    · unfold Env.lookupOutside at hfound
      split at hfound
      · next decl htype =>
        cases hfound
        exact ⟨hnames, h.package, by simp [packageType_scope htype], nofun⟩
      · split at hfound
        · next found hsite =>
          cases hfound
          obtain ⟨p, hp, hsite⟩ := Option.bind_eq_some_iff.mp hsite
          have hat := siteAt_of_mem env (h.names.package p hp) hsite
          exact ⟨hnames, hat.package, hat.isLocal, hat.offset⟩
        · obtain ⟨t, -, ht⟩ := Option.map_eq_some_iff.mp hfound
          cases ht

/-! ## Places -/

section

variable (hv : v.Sound)
include hv

theorem Belongs.eq {o : Origin} {a b : Option Package} (ha : v.Belongs o a) (hb : v.Belongs o b) : a = b := by
  cases ha with
  | buffer =>
    generalize ho : Origin.buffer = o at hb
    cases hb with
    | buffer => rfl
    | member => cases ho
  | @member p hp file =>
    generalize ho : Origin.member p.path (p.dir.map (·.text)) file = o at hb
    cases hb with
    | buffer => cases ho
    | @member q hq file' =>
      injection ho with hpath hdir
      exact congrArg some ((hv.packages hp).eq (hv.packages hq) hpath hdir)

theorem Holds.eq {o : Origin} {f g : SourceFile} (hf : v.Holds o f) (hg : v.Holds o g) : f = g := by
  cases hf with
  | buffer =>
    generalize ho : Origin.buffer = o at hg
    cases hg with
    | buffer => rfl
    | member => cases ho
  | @member p f hp hf =>
    generalize ho : Origin.member p.path (p.dir.map (·.text)) (f.path.map (·.text)) = o at hg
    cases hg with
    | buffer => cases ho
    | @member q g hq hg =>
      injection ho with hpath hdir hfile
      obtain rfl := (hv.packages hp).eq (hv.packages hq) hpath hdir
      exact (hv.packages hp).source_eq hf hg hfile

/-- One declaration stands at a place. -/
theorem SiteIn.eq_of_place (h : v.SiteIn site) (h' : v.SiteIn site') (hplace : site.place = site'.place) :
    site.file = site'.file ∧ site.decl = site'.decl ∧ site.path = site'.path ∧ site.name = site'.name := by
  obtain ⟨horigin, htype, hstart⟩ : site.origin = site'.origin ∧ site.typeName = site'.typeName ∧
      site.decl.span.start = site'.decl.span.start := by simpa [Site.place] using hplace
  have hfile : site.file = site'.file := Holds.eq hv h.holds (horigin ▸ h'.holds)
  obtain ⟨text, htext, -⟩ := hv.fits (h.holds.file_mem fun p => hv.packages)
  have hnested : site.file.WellNested := htext ▸ SourceFile.wellNested_parse text
  have hdecl : site.decl = site'.decl := hnested.eq_of_start h.decl (hfile ▸ h'.decl) hstart
  exact ⟨hfile, hdecl, congrArg TypeName.path htype, congrArg TypeName.package htype⟩

omit hv in
theorem SiteAt.offset_eq (h : v.SiteAt env site) (h' : v.SiteAt env' site') (hdecl : site.decl = site'.decl) :
    (if site.isLocal then env.offset else none) = if site'.isLocal then env'.offset else none := by
  have hlocal : site.isLocal = site'.isLocal := by rw [h.isLocal, h'.isLocal, hdecl]
  rw [← hlocal]
  split
  · next hsite => exact (h.offset hsite).trans (h'.offset (hlocal ▸ hsite)).symm
  · rfl

/-- Whenever a run comes to an alias at a place, inside the same declared types, the same names are visible in it. -/
theorem expandingAlias_eq (he : v.EnvAt env) (he' : v.EnvAt env') (hs : v.SiteAt env site) (hs' : v.SiteAt env' site')
    (hplace : site.place = site'.place) (hvisiting : env.visiting = env'.visiting) (args : List Ty) :
    site.decl = site'.decl ∧ env.expandingAlias site args =
      { env'.expandingAlias site' args with expanding := site.place :: env.expanding } := by
  obtain ⟨hfile, hdecl, hpath, hname⟩ := hs.names.eq_of_place hv hs'.names hplace
  have horigin : site.origin = site'.origin := congrArg Prod.fst hplace
  have hpackage := Belongs.eq hv hs.package (horigin ▸ hs'.package)
  have hskip : env.skip = env'.skip := he.skip.trans he'.skip.symm
  have hoffset := hs.offset_eq hs' hdecl
  refine ⟨hdecl, ?_⟩
  simp only [Env.expandingAlias, Env.inside, hfile, hdecl, hpath, hname, horigin, hpackage, hskip, hoffset, hvisiting]

end

end World

end LiteralFill
