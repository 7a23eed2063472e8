import LiteralFill.Proofs.Fill.Lockstep

/-!
Where the declarations that resolution meets come from: from the file that is edited, from the files of a tree, and
from the files that come with the library. The packages it meets are the one beside the file and those that files
import, so there are finitely many declarations, and finitely many names to call them by.
-/

namespace LiteralFill

open Resolution (give stop forEach Grows)

/-! ## Packages -/

/-- The texts among the files of a tree. -/
def FileTree.sources (tree : FileTree) : List SourceFile :=
  tree.entries.filterMap fun (_, e) =>
    match e with
    | .file bytes => (decodeText bytes).map fun text => SourceFile.parse text.toList
    | .directory => none

/-- The files that come with the library. -/
def standardSources : List SourceFile :=
  [timeSource, syncSource, stringsSource, bytesSource, bigSource].map fun lines =>
    SourceFile.parse (joinLines lines).toList

/-- A package that is read from a tree, or comes with the library. -/
def Package.FromTree (tree : FileTree) (p : Package) : Prop :=
  ∃ path, Package.standard path = some p ∨ ∃ dir, Package.read tree path dir = some p

theorem FileTree.readText_mem_sources {tree : FileTree} {p : Path} {text : String}
    (h : tree.readText p = some text) : SourceFile.parse text.toList ∈ tree.sources := by
  obtain ⟨bytes, hbytes, htext⟩ := Option.bind_eq_some_iff.mp h
  have hentry : tree.entry p = some (.file bytes) := by
    unfold readBytes at hbytes
    split at hbytes
    · next e he =>
      cases hbytes
      exact he
    · cases hbytes
  obtain ⟨place, -, hat⟩ := Option.bind_eq_some_iff.mp hentry
  have hmem : (place, Entry.file bytes) ∈ tree.entries := by
    unfold entryAt at hat
    split at hat
    · cases hat
    · exact List.lookup_eq_some_iff.mp hat |>.elim fun l₁ ⟨l₂, hl, _⟩ => by simp [hl]
  exact List.mem_filterMap.mpr ⟨_, hmem, by simp [htext]⟩

theorem Package.standard_files {path : String} {p : Package} (h : Package.standard path = some p) :
    ∃ source ∈ standardSources, p.files = [⟨none, source⟩] := by
  obtain ⟨text, htext, rfl⟩ := Option.map_eq_some_iff.mp h
  refine ⟨_, ?_, rfl⟩
  unfold standardSource at htext
  unfold standardSources
  split at htext <;> simp_all

theorem Package.read_files {tree : FileTree} {path : String} {dir : Path} {p : Package}
    (h : Package.read tree path dir = some p) :
    p.files.length ≤ tree.entries.length ∧ ∀ f ∈ p.files, f.source ∈ tree.sources := by
  unfold Package.read at h
  split at h
  · cases h
  · next names hnames =>
    dsimp only at h
    split at h
    · cases h
    · cases h
      constructor
      · obtain ⟨place, -, hplace⟩ : ∃ place, tree.locate dir = some place ∧
            names = tree.entries.filterMap fun (inner, _) => FileTree.childName place inner := by
          unfold FileTree.list at hnames
          split at hnames
          · next place hlocate =>
            split at hnames
            · cases hnames
              exact ⟨place, hlocate, rfl⟩
            · cases hnames
          · cases hnames
        show (List.filterMap _ _).length ≤ _
        have hnames : names.length ≤ tree.entries.length := by
          rw [hplace]
          exact List.length_filterMap_le ..
        refine Nat.le_trans (List.length_filterMap_le ..) ?_
        rw [List.length_map, sortNames, List.length_mergeSort]
        exact Nat.le_trans (List.length_filter_le ..) hnames
      · intro f hf
        obtain ⟨q, -, hq⟩ := List.mem_filterMap.mp hf
        obtain ⟨text, htext, rfl⟩ := Option.map_eq_some_iff.mp hq
        exact FileTree.readText_mem_sources htext

namespace Package.FromTree

variable {tree : FileTree} {p : Package}

theorem files_length (h : p.FromTree tree) : p.files.length ≤ tree.entries.length + 1 := by
  obtain ⟨path, h | ⟨dir, h⟩⟩ := h
  · obtain ⟨source, -, hfiles⟩ := Package.standard_files h
    simp [hfiles]
  · exact Nat.le_succ_of_le (Package.read_files h).1

theorem mem_sources (h : p.FromTree tree) {f : PackageFile} (hf : f ∈ p.files) :
    f.source ∈ tree.sources ++ standardSources := by
  obtain ⟨path, h | ⟨dir, h⟩⟩ := h
  · obtain ⟨source, hsource, hfiles⟩ := Package.standard_files h
    rw [hfiles, List.mem_singleton] at hf
    rw [hf]
    exact List.mem_append_right _ hsource
  · exact List.mem_append_left _ ((Package.read_files h).2 f hf)

end Package.FromTree

/-! ## What is remembered -/

/-- All packages that are remembered are read from a tree, or come with the library. -/
structure PackageDb.FromTree (tree : FileTree) (db : PackageDb) : Prop where
  byPath : ∀ e ∈ db.byPath, ∀ p ∈ e.2, p.FromTree tree
  byDir : ∀ e ∈ db.byDir, ∀ p ∈ e.2, p.FromTree tree

namespace PackageDb.FromTree

variable {tree : FileTree} {db : PackageDb} (h : db.FromTree tree)
include h

theorem readDir (path : String) (dir : Path) :
    (db.readDir tree path dir).2.FromTree tree ∧ ∀ p ∈ (db.readDir tree path dir).1, p.FromTree tree := by
  unfold PackageDb.readDir
  split
  · next package hseen =>
    obtain ⟨e, he, rfl⟩ := Option.map_eq_some_iff.mp hseen
    exact ⟨h, h.byDir e (List.mem_of_find?_eq_some he)⟩
  · have hread : ∀ p ∈ Package.read tree path dir, p.FromTree tree := fun p hp => ⟨path, .inr ⟨dir, hp⟩⟩
    refine ⟨⟨h.byPath, fun e he => ?_⟩, hread⟩
    rcases List.mem_append.mp he with he | he
    · exact h.byDir e he
    · rw [List.mem_singleton.mp he]
      exact hread

theorem load (path : String) :
    (db.load tree path).2.FromTree tree ∧ ∀ p ∈ (db.load tree path).1, p.FromTree tree := by
  cases hseen : db.byPath.lookup path with
  | some package =>
    obtain ⟨l₁, l₂, hl, -⟩ := List.lookup_eq_some_iff.mp hseen
    rw [PackageDb.load_of_remembered tree hseen]
    exact ⟨h, h.byPath (path, package) (by simp [hl])⟩
  | none =>
    have hfound : ∀ found : Option Package × PackageDb,
        (found.2.FromTree tree ∧ ∀ p ∈ found.1, p.FromTree tree) →
        ({ found.2 with byPath := found.2.byPath ++ [(path, found.1.orElse fun _ => Package.standard path)] }
          : PackageDb).FromTree tree ∧ ∀ p ∈ found.1.orElse fun _ => Package.standard path, p.FromTree tree := by
      rintro ⟨found, db'⟩ ⟨hdb, hfound⟩
      have hp : ∀ p ∈ found.orElse fun _ => Package.standard path, p.FromTree tree := by
        intro p hp
        cases found with
        | none => exact ⟨path, .inl hp⟩
        | some q => exact hfound p hp
      refine ⟨⟨fun e he => ?_, hdb.byDir⟩, hp⟩
      rcases List.mem_append.mp he with he | he
      · exact hdb.byPath e he
      · rw [List.mem_singleton.mp he]
        exact hp
    rw [PackageDb.load_of_new hseen]
    refine hfound (db.readFor tree path) ?_
    cases hdir : db.dirFor tree path with
    | none =>
      rw [PackageDb.readFor_of_none hdir]
      exact ⟨h, by simp⟩
    | some dir =>
      rw [PackageDb.readFor_of_some hdir]
      exact h.readDir ..

theorem loadDir (dir : Path) :
    (db.loadDir tree dir).2.FromTree tree ∧ ∀ p ∈ (db.loadDir tree dir).1, p.FromTree tree := h.readDir ..

end PackageDb.FromTree

namespace Resolution

variable {α β : Type} (tree : FileTree)

/-- A step that remembers nothing but packages from a tree. -/
structure KeepsSources (r : Resolution α) : Prop where
  step {s : Session} (h : s.packages.FromTree tree) : (r s).2.packages.FromTree tree

namespace KeepsSources

variable {tree}

theorem give (a : α) : KeepsSources tree (Resolution.give a) := ⟨id⟩

theorem stop (e : ResolveError) : KeepsSources tree (Resolution.stop e : Resolution α) := ⟨id⟩

theorem bind {r : Resolution α} {f : α → Resolution β} (hr : KeepsSources tree r)
    (hf : ∀ a, KeepsSources tree (f a)) : KeepsSources tree (r >>= f) := by
  refine ⟨fun {s} h => ?_⟩
  have hfirst := hr.step h
  show ((r.andThen f) s).2.packages.FromTree tree
  unfold andThen
  cases hrun : r s with
  | mk result s₁ =>
    rw [hrun] at hfirst
    cases result with
    | error e => exact hfirst
    | ok a => exact (hf a).step hfirst

theorem checkCancelled : KeepsSources tree Resolution.checkCancelled := by
  refine ⟨fun {s} h => ?_⟩
  rw [← s.poll_packages] at h
  unfold Resolution.checkCancelled
  split <;> simp_all

theorem load (path : String) : KeepsSources tree (Resolution.load tree path) :=
  checkCancelled.bind fun _ => ⟨fun h => (h.load path).1⟩

theorem loadDir (dir : Path) : KeepsSources tree (Resolution.loadDir tree dir) :=
  checkCancelled.bind fun _ => ⟨fun h => (h.loadDir dir).1⟩

end KeepsSources

end Resolution

open Resolution (KeepsSources)

variable (tree : FileTree)

/-- No step remembers anything but packages from the tree. -/
theorem keepsSources_steps : KeptBySteps tree fun r => KeepsSources tree r :=
  ⟨.give, fun _ => .stop _, .bind, .load, .loadDir⟩

theorem packageBeside_keepsSources (scope : Scope) : KeepsSources tree (packageBeside tree scope) :=
  (keepsSources_steps tree).packageBeside scope

/-- Whatever is resolved, what is remembered comes from the tree. -/
theorem resolveWithin_keepsSources (depth : Nat) (env : Env) (type : TypeExpr) (mode : Mode) :
    KeepsSources tree (resolveWithin tree depth env type mode) :=
  (keepsSources_steps tree).resolveWithin depth env type mode

/-- Finding a struct type remembers nothing but packages from the tree. -/
theorem resolveStruct_keepsSources (scope : Scope) (type : TypeExpr) :
    KeepsSources tree (resolveStruct tree scope type) := (keepsSources_steps tree).resolveStruct scope type

/-! ## Declarations of a file -/

namespace SourceFile

theorem mem_of_numberedTypes {f : SourceFile} {e : Nat × TypeDecl} (h : e ∈ f.numberedTypes) : e.2 ∈ f.types := by
  obtain ⟨⟨d, i⟩, hmem, rfl⟩ := List.mem_map.mp h
  exact List.mem_of_getElem? (List.mem_zipIdx_iff_getElem?.mp hmem)

theorem mem_of_packageType {f : SourceFile} {name : String} {d : TypeDecl} (h : f.packageType name = some d) :
    d ∈ f.types := by
  obtain ⟨e, he, rfl⟩ := Option.map_eq_some_iff.mp h
  exact mem_of_numberedTypes (List.mem_of_find?_eq_some he)

theorem mem_of_leastIndex {α : Type} {measure : α → Nat} {l : List (Nat × α)} {e : Nat × α}
    (h : leastIndex measure l = some e) : e ∈ l := by
  induction l generalizing e with
  | nil => cases h
  | cons first rest ih =>
    obtain ⟨i, a⟩ := first
    unfold leastIndex at h
    split at h
    · next j b hrest =>
      split at h
      · cases h
        exact List.mem_cons_of_mem _ (ih hrest)
      · cases h
        exact List.mem_cons_self
    · cases h
      exact List.mem_cons_self

theorem mem_of_localType {f : SourceFile} {name : String} {offset : Nat} {d : TypeDecl}
    (h : f.localType name offset = some d) : d ∈ f.types := by
  obtain ⟨e, he, rfl⟩ := Option.map_eq_some_iff.mp h
  exact mem_of_numberedTypes (List.mem_of_mem_filter (mem_of_leastIndex he))

end SourceFile

/-! ## Declarations that are found -/

/-- A declaration of a package stands in one of its files. -/
theorem exists_of_siteIn {p : Package} {name : String} {skip : Option Path} {site : Site}
    (h : siteIn p name skip = some site) : ∃ f ∈ p.files, ∃ d ∈ f.source.types, site = ⟨f.source,
      .member p.path (p.dir.map (·.text)) (f.path.map (·.text)), some p, d, p.path, p.name, false⟩ := by
  unfold siteIn at h
  split at h
  · next index decl hfound =>
    obtain ⟨⟨f, i⟩, hmem, hdecl⟩ := List.exists_of_findSome?_eq_some hfound
    dsimp only at hdecl
    split at hdecl
    · cases hdecl
    · obtain ⟨d, htype, hpair⟩ := Option.map_eq_some_iff.mp hdecl
      obtain ⟨rfl, rfl⟩ := Prod.mk.inj hpair
      have hf : p.files[i]? = some f := List.mem_zipIdx_iff_getElem?.mp hmem
      rw [hf, Option.map_some, Option.some.injEq] at h
      exact ⟨f, List.mem_of_getElem? hf, d, SourceFile.mem_of_packageType htype, h.symm⟩
  · cases h

/-- A declaration that is found near stands in the file, or in one of the package under the names of the file. -/
theorem Env.lookupNear_declaration {env : Env} {name : String} {site : Site}
    (h : env.lookupNear name = some (.declaration site)) :
    (∃ d ∈ env.file.types, ∃ isLocal, Found.declaration site = env.siteHere d isLocal) ∨
      ∃ p ∈ env.package, ∃ site', siteIn p name env.skip = some site' ∧
        site = { site' with path := env.path, name := env.name } := by
  unfold lookupNear at h
  split at h
  · cases h
  · split at h
    · next decl hlocal =>
      obtain ⟨offset, -, hlocal⟩ := Option.bind_eq_some_iff.mp hlocal
      exact .inl ⟨decl, SourceFile.mem_of_localType hlocal, _, (Option.some.inj h).symm⟩
    · split at h
      · next decl htype => exact .inl ⟨decl, SourceFile.mem_of_packageType htype, _, (Option.some.inj h).symm⟩
      · split at h
        · next site' hsite =>
          obtain ⟨p, hp, hsite⟩ := Option.bind_eq_some_iff.mp hsite
          cases h
          exact .inr ⟨p, hp, site', hsite, rfl⟩
        · obtain ⟨t, -, ht⟩ := Option.map_eq_some_iff.mp h
          cases ht

/-! ## What resolution can meet -/

/-- What a run starts from, and the packages that are remembered after it. -/
structure World where
  tree : FileTree
  scope : Scope
  beside : Option Package
  memory : PackageDb

namespace World

variable (v : World)

/-- All files that declarations may stand in. -/
def sources : List SourceFile := v.scope.file :: (v.tree.sources ++ standardSources)

/-- The import paths in all those files. -/
def importPaths : List String := v.sources.flatMap fun f => f.imports.map (·.path)

/-- The packages that may be met: the one beside the file, and those that files import. -/
def packages : List Package :=
  v.beside.toList ++ v.importPaths.filterMap fun path => (v.memory.byPath.lookup path).join

/-- The paths and names of packages that the names of types are qualified with. -/
def labels : List (String × String) :=
  (v.scope.packagePath, v.scope.file.package.getD "") :: v.packages.map fun p => (p.path, p.name)

/-- The declared types, and where they stand. -/
def declarations : List (Origin × TypeDecl) :=
  v.scope.file.types.map (Origin.buffer, ·) ++ v.packages.flatMap fun p => p.files.flatMap fun f =>
    f.source.types.map (Origin.member p.path (p.dir.map (·.text)) (f.path.map (·.text)), ·)

/-- All that an alias may be known by. -/
def places : List (Origin × TypeName × Nat) :=
  v.declarations.flatMap fun d => v.labels.map fun l => (d.1, ⟨l.1, l.2, d.2.name⟩, d.2.span.start)

/-- All that a declared type may be called. -/
def names : List TypeName := v.places.map fun place => place.2.1

/-- The file of an origin. -/
inductive Holds : Origin → SourceFile → Prop
  | buffer : Holds .buffer v.scope.file
  | member {p : Package} {f : PackageFile} (hp : p ∈ v.packages) (hf : f ∈ p.files) :
    Holds (.member p.path (p.dir.map (·.text)) (f.path.map (·.text))) f.source

/-- Names that are visible in a file that can be met. -/
structure EnvIn (env : Env) : Prop where
  holds : v.Holds env.origin env.file
  package : ∀ p ∈ env.package, p ∈ v.packages
  label : (env.path, env.name) ∈ v.labels

/-- A declaration in a file that can be met. -/
structure SiteIn (site : Site) : Prop where
  holds : v.Holds site.origin site.file
  package : ∀ p ∈ site.package, p ∈ v.packages
  label : (site.path, site.name) ∈ v.labels
  decl : site.decl ∈ site.file.types

variable {v}

theorem SiteIn.place_mem {site : Site} (h : v.SiteIn site) : site.place ∈ v.places := by
  have hdecl : (site.origin, site.decl) ∈ v.declarations := by
    obtain ⟨file, origin, package, decl, path, name, isLocal⟩ := site
    obtain ⟨hholds, -, -, hmem⟩ := h
    dsimp only at hholds hmem ⊢
    cases hholds with
    | buffer => exact List.mem_append_left _ (List.mem_map_of_mem hmem)
    | member hp hf =>
      refine List.mem_append_right _ (List.mem_flatMap.mpr ⟨_, hp, List.mem_flatMap.mpr ⟨_, hf, ?_⟩⟩)
      exact List.mem_map_of_mem hmem
  exact List.mem_flatMap.mpr ⟨_, hdecl, List.mem_map_of_mem h.label⟩

theorem SiteIn.typeName_mem {site : Site} (h : v.SiteIn site) : site.typeName ∈ v.names :=
  List.mem_map_of_mem h.place_mem

theorem EnvIn.inside {env : Env} (he : v.EnvIn env) {site : Site} (hs : v.SiteIn site) (args : List Ty) :
    v.EnvIn (env.inside site args) := by
  refine ⟨hs.holds, fun p hp => ?_, hs.label⟩
  change p ∈ site.package.orElse fun _ => env.package at hp
  cases hsite : site.package with
  | none =>
    rw [hsite] at hp
    exact he.package p hp
  | some q =>
    rw [hsite] at hp
    exact hs.package p (hsite ▸ hp)

theorem siteIn_of_mem {p : Package} (hp : p ∈ v.packages) {name : String} {skip : Option Path} {site : Site}
    (h : LiteralFill.siteIn p name skip = some site) : v.SiteIn site := by
  obtain ⟨f, hf, d, hd, rfl⟩ := exists_of_siteIn h
  refine ⟨.member hp hf, ?_, List.mem_cons_of_mem _ (List.mem_map_of_mem hp), hd⟩
  rintro _ ⟨⟩
  exact hp

/-- What is found near is found in a file that can be met. -/
theorem EnvIn.lookupNear {env : Env} (he : v.EnvIn env) {name : String} {site : Site}
    (h : env.lookupNear name = some (.declaration site)) : v.SiteIn site := by
  rcases env.lookupNear_declaration h with ⟨d, hd, isLocal, hsite⟩ | ⟨p, hp, site', hsite, rfl⟩
  · cases hsite
    exact ⟨he.holds, by simp, he.label, hd⟩
  · have hsite' := siteIn_of_mem (he.package p hp) hsite
    exact ⟨hsite'.holds, hsite'.package, he.label, hsite'.decl⟩

end World

end LiteralFill
