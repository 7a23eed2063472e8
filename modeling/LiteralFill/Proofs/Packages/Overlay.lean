import LiteralFill.Proofs.Packages.Renaming

/-!
Two trees with files at a place that import a package under two names. The packages are the same, but for the files
that are read from there, and what is declared in a package is declared in one of the two files or the same in both
trees.
-/

namespace LiteralFill

namespace Renaming

variable (c : Renaming)

/-! ## Packages -/

/-- A file of a package, as it is read from one of the trees. -/
def fileOver (i : Bool) (f : PackageFile) : PackageFile :=
  match f.path with
  | some p => if (c.tree false).locate p = some c.place then ⟨some p, c.file i⟩ else f
  | none => f

/-- A package, as it is read from one of the trees. -/
def packageOver (i : Bool) (p : Package) : Package := { p with files := p.files.map (c.fileOver i) }

/-- What is remembered over one of the trees. -/
def dbOver (i : Bool) (db : PackageDb) : PackageDb :=
  { db with
    byPath := db.byPath.map fun e => (e.1, e.2.map (c.packageOver i))
    byDir := db.byDir.map fun e => (e.1, e.2.map (c.packageOver i)) }

@[simp] theorem fileOver_path (i : Bool) (f : PackageFile) : (c.fileOver i f).path = f.path := by
  unfold fileOver
  split
  · next p hp =>
    split
    · exact hp.symm
    · rfl
  · rfl

/-- A file of a package stands at the place, and is one of the two, or it is the same in both trees. -/
theorem fileOver_cases (f : PackageFile) :
    (∃ p, f.path = some p ∧ (c.tree false).locate p = some c.place ∧ ∀ i, (c.fileOver i f).source = c.file i) ∨
      (∀ p, f.path = some p → (c.tree false).locate p ≠ some c.place) ∧ ∀ i, c.fileOver i f = f := by
  unfold fileOver
  split
  · next p hp =>
    split
    · next hplace => exact .inl ⟨p, hp, hplace, fun _ => rfl⟩
    · next hplace =>
      refine .inr ⟨fun q hq => ?_, fun _ => rfl⟩
      rw [hp, Option.some.injEq] at hq
      exact hq ▸ hplace
  · next hp =>
    refine .inr ⟨fun q hq => ?_, fun _ => rfl⟩
    rw [hp] at hq
    cases hq

theorem locate (i : Bool) (p : Path) : (c.tree i).locate p = (c.tree false).locate p := by
  cases i with
  | false => rfl
  | true => exact c.same.locate p

theorem isDirectory (i : Bool) (p : Path) : (c.tree i).isDirectory p = (c.tree false).isDirectory p := by
  cases i with
  | false => rfl
  | true => exact c.same.isDirectory p

theorem list (i : Bool) (p : Path) : (c.tree i).list p = (c.tree false).list p := by
  cases i with
  | false => rfl
  | true => exact c.same.list p

theorem readText_place {p : Path} (hp : (c.tree false).locate p = some c.place) (i : Bool) :
    (c.tree i).readText p = some (c.text i) := by
  have htext := c.reads i
  unfold FileTree.textAt at htext
  unfold FileTree.readText FileTree.readBytes FileTree.entry
  rw [c.locate, hp, Option.bind_some]
  cases hentry : (c.tree i).entryAt c.place with
  | none =>
    rw [hentry] at htext
    cases htext
  | some e =>
    rw [hentry] at htext
    cases e with
    | directory => cases htext
    | file bytes => exact htext

theorem fileAt_over (i : Bool) (p : Path) :
    Package.fileAt (c.tree i) p = (Package.fileAt (c.tree false) p).map (c.fileOver i) := by
  by_cases hp : (c.tree false).locate p = some c.place
  · simp only [Package.fileAt, c.readText_place hp, Option.map_some, fileOver, hp, ↓reduceIte, file]
  · have hsame : Package.fileAt (c.tree i) p = Package.fileAt (c.tree false) p := by
      cases i with
      | false => rfl
      | true => exact Package.fileAt_of_ne c.same hp
    rw [hsame]
    unfold Package.fileAt
    cases (c.tree false).readText p with
    | none => rfl
    | some text => simp only [Option.map_some, fileOver, hp, ↓reduceIte]

theorem filesIn_over (i : Bool) (dir : Path) :
    Package.filesIn (c.tree i) dir = (Package.filesIn (c.tree false) dir).map (c.fileOver i) := by
  unfold Package.filesIn
  rw [c.list]
  cases (c.tree false).list dir with
  | none => rfl
  | some names =>
    simp only [Option.map_some, Option.getD_some, List.map_filterMap]
    exact List.filterMap_congr fun p _ => c.fileAt_over i p

/-- A file that is read from the first tree is the one that stands there. -/
theorem fileOver_false {dir : Path} {f : PackageFile} (hf : f ∈ Package.filesIn (c.tree false) dir) :
    c.fileOver false f = f := by
  unfold Package.filesIn at hf
  cases hlist : (c.tree false).list dir with
  | none =>
    rw [hlist] at hf
    cases hf
  | some names =>
    rw [hlist, Option.map_some, Option.getD_some] at hf
    obtain ⟨p, -, hp⟩ := List.mem_filterMap.mp hf
    have hover := c.fileAt_over false p
    rw [hp, Option.map_some, Option.some.injEq] at hover
    exact hover.symm

theorem read_over (i : Bool) (path : String) (dir : Path) :
    Package.read (c.tree i) path dir = (Package.read (c.tree false) path dir).map (c.packageOver i) := by
  have hclause : ∀ f ∈ Package.filesIn (c.tree false) dir, (c.fileOver i f).source.package = f.source.package := by
    intro f hf
    rcases c.fileOver_cases f with ⟨-, -, -, hsource⟩ | ⟨-, hsame⟩
    · rw [hsource, ← c.fileOver_false hf, hsource, c.package_same]
    · rw [hsame]
  rw [Package.read_eq, Package.read_eq, c.filesIn_over, List.isEmpty_map]
  split
  · rfl
  · have hname : ((Package.filesIn (c.tree false) dir).map (c.fileOver i)).findSome? (fun f => f.source.package) =
        (Package.filesIn (c.tree false) dir).findSome? fun f => f.source.package := by
      rw [List.findSome?_map]
      generalize Package.filesIn (c.tree false) dir = files at hclause
      induction files with
      | nil => rfl
      | cons f rest ih =>
        rw [List.findSome?_cons, List.findSome?_cons, Function.comp_apply, hclause f List.mem_cons_self,
          ih fun f hf => hclause f (List.mem_cons_of_mem _ hf)]
    rw [Option.map_some, packageOver, Package.ofFiles, Package.ofFiles, hname]

theorem standard_over (i : Bool) (path : String) :
    (Package.standard path).map (c.packageOver i) = Package.standard path := by
  unfold Package.standard
  cases standardSource path <;> rfl

/-! ## Loading -/

theorem lookup_map {α β γ : Type} [BEq α] (g : β → γ) (l : List (α × β)) (a : α) :
    (l.map fun e => (e.1, g e.2)).lookup a = (l.lookup a).map g := by
  induction l with
  | nil => rfl
  | cons e rest ih =>
    rw [List.map_cons, List.lookup_cons, List.lookup_cons]
    split <;> simp_all

theorem seenDir_over (i : Bool) (db : PackageDb) (dir : Path) :
    (c.dbOver i db).seenDir dir = (db.seenDir dir).map (·.map (c.packageOver i)) := by
  unfold PackageDb.seenDir dbOver
  rw [List.find?_map, Option.map_map, Option.map_map]
  rfl

theorem readDir_over (i : Bool) (path : String) (dir : Path) (db : PackageDb) :
    (c.dbOver i db).readDir (c.tree i) path dir = ((db.readDir (c.tree false) path dir).1.map (c.packageOver i),
      c.dbOver i (db.readDir (c.tree false) path dir).2) := by
  unfold PackageDb.readDir
  rw [c.seenDir_over]
  cases db.seenDir dir with
  | some package => rfl
  | none =>
    simp only [Option.map_none, c.read_over i, dbOver, List.map_append]
    rfl

theorem dirFor_over (i : Bool) (db : PackageDb) (path : String) :
    (c.dbOver i db).dirFor (c.tree i) path = db.dirFor (c.tree false) path :=
  congrArg (fun f => (db.candidates path).find? f) (funext (c.isDirectory i))

/-- A package is loaded to the same over both trees, but for the files. -/
theorem load_over (i : Bool) (path : String) (db : PackageDb) :
    (c.dbOver i db).load (c.tree i) path = ((db.load (c.tree false) path).1.map (c.packageOver i),
      c.dbOver i (db.load (c.tree false) path).2) := by
  unfold PackageDb.load
  rw [show (c.dbOver i db).byPath.lookup path = (db.byPath.lookup path).map (·.map (c.packageOver i)) from
    lookup_map ..]
  cases db.byPath.lookup path with
  | some package => rfl
  | none =>
    rw [Option.map_none, c.dirFor_over]
    have hstandard (found : Option Package) : ((found.map (c.packageOver i)).orElse fun _ => Package.standard path) =
        (found.orElse fun _ => Package.standard path).map (c.packageOver i) := by
      cases found with
      | some p => rfl
      | none => exact (c.standard_over i path).symm
    have hremember (found : Option Package) (db : PackageDb) :
        { c.dbOver i db with byPath := (c.dbOver i db).byPath ++ [(path, found.map (c.packageOver i))] } =
          c.dbOver i { db with byPath := db.byPath ++ [(path, found)] } := by
      simp [dbOver]
    cases db.dirFor (c.tree false) path with
    | none =>
      dsimp only
      rw [← hremember, ← hstandard]
      rfl
    | some dir =>
      dsimp only
      rw [c.readDir_over, ← hremember, ← hstandard]

theorem loadDir_over (i : Bool) (dir : Path) (db : PackageDb) :
    (c.dbOver i db).loadDir (c.tree i) dir = ((db.loadDir (c.tree false) dir).1.map (c.packageOver i),
      c.dbOver i (db.loadDir (c.tree false) dir).2) :=
  c.readDir_over ..

/-! ## Declarations -/

/-- Declarations in a file that is read from the place. -/
def IsPlace (origin : Origin) : Prop :=
  ∃ package dir file, origin = .member package dir (some file) ∧ (c.tree false).locate ⟨file⟩ = some c.place

/-- A file over the two trees, with what stands before the types in it and how types are written there: a file that is
the same, or the two files, whose local types are not visible. -/
inductive FilesOver : (Bool → SourceFile) → Origin → Option Nat → ((Bool → String) → Prop) →
    ((Bool → TypeExpr) → Prop) → Prop
  | same (f : SourceFile) {origin : Origin} (h : ¬ c.IsPlace origin) (offset : Option Nat) :
    FilesOver (fun _ => f) origin offset Same Same
  | renamed {origin : Origin} (h : c.IsPlace origin) : FilesOver c.file origin none c.Qualifies c.Renamed

/-- What a declaration is known by, over the two trees: in the two files it may stand elsewhere. -/
inductive PlacesOver : (Bool → Origin × TypeName × Nat) → Prop
  | same {key : Origin × TypeName × Nat} (h : ¬ c.IsPlace key.1) : PlacesOver fun _ => key
  | renamed {d : Bool → TypeDecl} {n : TypeName} (h : ∀ i, (c.file i).packageType n.name = some (d i)) {origin : Origin}
    (horigin : c.IsPlace origin) : PlacesOver fun i => (origin, n, (d i).span.start)

/-- A declaration over the two trees. -/
inductive SitesOver : (Bool → Site) → Prop
  | intro {file : Bool → SourceFile} {origin : Origin} {Q : (Bool → String) → Prop} {P : (Bool → TypeExpr) → Prop}
    {isLocal : Bool} (hfile : ∀ offset, c.FilesOver file origin (if isLocal then offset else none) Q P)
    {d : Bool → TypeDecl} (htype : P fun i => (d i).type)
    (hhead : ∀ i, (d i).name = (d false).name ∧ (d i).params = (d false).params ∧ (d i).isAlias = (d false).isAlias)
    (hplace : ∀ path name, c.PlacesOver fun i => (origin, ⟨path, name, (d false).name⟩, (d i).span.start))
    (package : Option Package) (path name : String) :
    SitesOver fun i => ⟨file i, origin, package.map (c.packageOver i), d i, path, name, isLocal⟩

variable {c}

/-- Declarations are the same one over one tree if they are over the other one. -/
theorem PlacesOver.eq_iff {p q : Bool → Origin × TypeName × Nat} (hp : c.PlacesOver p) (hq : c.PlacesOver q)
    (i : Bool) : p i = q i ↔ p false = q false := by
  have hne {key : Origin × TypeName × Nat} {origin : Origin} (hkey : ¬ c.IsPlace key.1) (horigin : c.IsPlace origin)
      (n : TypeName) (k : Nat) : key ≠ (origin, n, k) := by
    rintro rfl
    exact hkey horigin
  cases hp with
  | same hp =>
    cases hq with
    | same _ => rfl
    | renamed _ horigin => exact iff_of_false (hne hp horigin _ _) (hne hp horigin _ _)
  | renamed hd horigin =>
    cases hq with
    | same hq => exact iff_of_false (hne hq horigin _ _).symm (hne hq horigin _ _).symm
    | renamed hd' _ =>
      simp only [Prod.mk.injEq]
      refine and_congr_right fun _ => and_congr_right fun hname => ?_
      subst hname
      have hsame (i : Bool) := Option.some.inj ((hd i).symm.trans (hd' i))
      simp only [hsame]

theorem PlacesOver.contains {places : List (Bool → Origin × TypeName × Nat)} (hplaces : ∀ p ∈ places, c.PlacesOver p)
    {q : Bool → Origin × TypeName × Nat} (hq : c.PlacesOver q) (i : Bool) :
    (places.map (· i)).contains (q i) = (places.map (· false)).contains (q false) := by
  induction places with
  | nil => rfl
  | cons p rest ih =>
    have hfirst : (q i == p i) = (q false == p false) :=
      Bool.eq_iff_iff.mpr (by simpa using hq.eq_iff (hplaces p List.mem_cons_self) i)
    rw [List.map_cons, List.map_cons, List.contains_cons, List.contains_cons, hfirst,
      ih fun p hp => hplaces p (List.mem_cons_of_mem _ hp)]

theorem same_families (imports : List ImportSpec) : ∃ specs : List (Bool → ImportSpec),
    (∀ i, imports = specs.map (· i)) ∧ ∀ spec ∈ specs, ∀ i, (spec i).path = (spec false).path := by
  refine ⟨imports.map fun spec _ => spec, fun i => ?_, fun spec hspec i => ?_⟩
  · rw [List.map_map]
    exact (List.map_id imports).symm
  · obtain ⟨_, -, rfl⟩ := List.mem_map.mp hspec
    rfl

/-- A declaration over the two trees is one and the same for who goes by its place or its name. -/
theorem SitesOver.place {site : Bool → Site} (h : c.SitesOver site) : c.PlacesOver (fun i => (site i).place) ∧
    ∀ i, (site i).decl.isAlias = (site false).decl.isAlias ∧ (site i).typeName = (site false).typeName := by
  obtain @⟨file, origin, Q, P, isLocal, hfile, d, htype, hhead, hplace, package, path, name⟩ := h
  refine ⟨?_, fun i => ⟨(hhead i).2.2, ?_⟩⟩
  · simp only [Site.place, Site.typeName, (hhead _).1]
    exact hplace path name
  · simp only [Site.typeName, (hhead i).1]

namespace FilesOver

variable {file : Bool → SourceFile} {origin : Origin} {offset : Option Nat} {Q : (Bool → String) → Prop}
  {P : (Bool → TypeExpr) → Prop} (h : c.FilesOver file origin offset Q P)
include h

theorem form {t : Bool → TypeExpr} (ht : P t) : FormTogether Q FormsAlike P t := by
  cases h with
  | same f _ _ =>
    obtain ⟨t, rfl⟩ := ht
    exact .same (fun text => .inl ⟨text, rfl⟩) fun t _ => ⟨t, rfl⟩
  | renamed _ => exact form_of_renamed ht

theorem argument {t : Bool → TypeExpr} (ht : P t) : ArgTogether t := by
  cases h with
  | same f _ _ =>
    obtain ⟨t, rfl⟩ := ht
    exact .same t
  | renamed _ => exact argTogether_of_renamed ht

theorem dotImports : ∃ specs : List (Bool → ImportSpec), (∀ i, (file i).imports.filter (·.isDot) = specs.map (· i)) ∧
    ∀ spec ∈ specs, ∀ i, (spec i).path = (spec false).path := by
  cases h with
  | same f _ _ => exact same_families _
  | renamed _ => exact c.dotImports

theorem plainImports : ∃ specs : List (Bool → ImportSpec),
    (∀ i, (file i).imports.filter (·.alias?.isNone) = specs.map (· i)) ∧
      ∀ spec ∈ specs, ∀ i, (spec i).path = (spec false).path := by
  cases h with
  | same f _ _ => exact same_families _
  | renamed _ => exact c.plainImports

/-- What stands before a type is the name of the package in the two files, or the same; then it stands for one path. -/
theorem importByName {q : Bool → String} (hq : Q q) :
    q = c.name ∧ (∀ i, ((file i).importByName (q i)).map (·.path) = some c.path) ∨
      Same q ∧ ∃ path, ∀ i, ((file i).importByName (q i)).map (·.path) = path := by
  cases h with
  | same f _ _ =>
    obtain ⟨s, rfl⟩ := hq
    exact .inr ⟨⟨s, rfl⟩, _, fun _ => rfl⟩
  | renamed _ =>
    rcases hq with rfl | ⟨s, rfl, hs⟩
    · exact .inl ⟨rfl, c.importByName_name⟩
    · exact .inr ⟨⟨s, rfl⟩, c.importByName_other hs⟩

theorem packageConst (name : String) : ∃ n, ∀ i, (file i).packageConst name = n := by
  cases h with
  | same f _ _ => exact ⟨_, fun _ => rfl⟩
  | renamed _ => exact c.packageConst_same name

/-- A type of the package that is declared in the file. -/
theorem packageType (name : String) : (∀ i, (file i).packageType name = none) ∨ ∃ d : Bool → TypeDecl,
    (∀ i, (file i).packageType name = some (d i)) ∧ ∀ (package : Option Package) path name,
      c.SitesOver fun i => ⟨file i, origin, package.map (c.packageOver i), d i, path, name, false⟩ := by
  cases h with
  | same f horigin _ =>
    cases hd : f.packageType name with
    | none => exact .inl fun _ => hd
    | some d =>
      exact .inr ⟨fun _ => d, fun _ => hd, .intro (fun _ => .same f horigin none) ⟨d.type, rfl⟩
        (fun _ => ⟨rfl, rfl, rfl⟩) fun _ _ => .same horigin⟩
  | renamed horigin =>
    refine (c.packageType_together name).imp id fun ⟨d, hd, hfound⟩ => ⟨d, hfound, ?_⟩
    refine .intro (fun _ => .renamed horigin) hd.type hd.head fun _ _ => .renamed (fun i => ?_) horigin
    dsimp only
    rw [packageType_name (hfound false), hfound i]

/-- A local type that is declared in the file. -/
theorem localType (name : String) : (∀ i, offset.bind ((file i).localType name) = none) ∨ ∃ d : TypeDecl,
    (∀ i, offset.bind ((file i).localType name) = some d) ∧ ∀ (package : Option Package) path name,
      c.SitesOver fun i => ⟨file i, origin, package.map (c.packageOver i), d, path, name, true⟩ := by
  cases h with
  | same f horigin _ =>
    cases hd : offset.bind (f.localType name) with
    | none => exact .inl fun _ => hd
    | some d =>
      exact .inr ⟨d, fun _ => hd, .intro (fun _ => .same f horigin _) ⟨d.type, rfl⟩ (fun _ => ⟨rfl, rfl, rfl⟩)
        fun _ _ => .same horigin⟩
  | renamed _ => exact .inl fun _ => rfl

end FilesOver

variable (c)

/-- A file of a package over the two trees. -/
theorem filesOver_fileOver (package : String) (dir : Option String) (f : PackageFile) : ∃ Q P,
    c.FilesOver (fun i => (c.fileOver i f).source) (.member package dir (f.path.map (·.text))) none Q P := by
  rcases c.fileOver_cases f with ⟨p, hp, hplace, hsource⟩ | ⟨helse, hsame⟩
  · simp only [hsource]
    exact ⟨_, _, .renamed ⟨package, dir, p.text, by rw [hp]; rfl, hplace⟩⟩
  · simp only [hsame]
    refine ⟨_, _, .same f.source ?_ none⟩
    rintro ⟨_, _, file, horigin, hplace⟩
    obtain ⟨-, -, hfile⟩ := Origin.member.inj horigin
    obtain ⟨p, hp, rfl⟩ := Option.map_eq_some_iff.mp hfile
    exact helse p hp hplace

/-- A type of a package over the two trees; it may be called by another path and name. -/
theorem siteIn_over (p : Package) (name : String) (skip : Option Path) :
    (∀ i, siteIn (c.packageOver i p) name skip = none) ∨
      ∃ site : Bool → Site, (∀ i, siteIn (c.packageOver i p) name skip = some (site i)) ∧ c.SitesOver site ∧
        ∀ path name, c.SitesOver fun i => { site i with path, name } := by
  have hskip (i : Bool) : (c.packageOver i p).files.filter (fun f => !Package.isSkipped skip f) =
      (p.files.filter fun f => !Package.isSkipped skip f).map (c.fileOver i) := by
    simp only [packageOver, List.filter_map, Function.comp_def, Package.isSkipped, fileOver_path]
  simp only [siteIn_eq, hskip]
  generalize p.files.filter (fun f => !Package.isSkipped skip f) = files
  induction files with
  | nil => exact .inl fun _ => rfl
  | cons f rest ih =>
    have hcons (i : Bool) : declaringFile name ((f :: rest).map (c.fileOver i)) =
        (((c.fileOver i f).source.packageType name).map (c.fileOver i f, ·)).or
          (declaringFile name (rest.map (c.fileOver i))) := by
      unfold declaringFile
      rw [List.map_cons, List.findSome?_cons]
      cases (c.fileOver i f).source.packageType name <;> rfl
    simp only [hcons]
    obtain ⟨Q, P, hfile⟩ := c.filesOver_fileOver p.path (p.dir.map (·.text)) f
    rcases hfile.packageType name with hnone | ⟨d, hd, hsite⟩
    · simpa only [hnone, Option.map_none, Option.none_or] using ih
    · simp only [hd, Option.map_some, Option.some_or]
      refine .inr ⟨_, fun _ => rfl, ?_, fun path name => ?_⟩
      · simp only [Package.site, fileOver_path]
        exact hsite (some p) p.path p.name
      · simp only [Package.site, fileOver_path]
        exact hsite (some p) path name

/-- The value of a constant of a package is the same. -/
theorem findConst_over (p : Package) (name : String) : ∃ n, ∀ i, (c.packageOver i p).findConst name = n := by
  simp only [Package.findConst, packageOver]
  induction p.files with
  | nil => exact ⟨none, fun _ => rfl⟩
  | cons f rest ih =>
    obtain ⟨Q, P, hfile⟩ := c.filesOver_fileOver p.path (p.dir.map (·.text)) f
    obtain ⟨n, hn⟩ := hfile.packageConst name
    obtain ⟨m, hm⟩ := ih
    refine ⟨n.or m, fun i => ?_⟩
    rw [List.map_cons, List.findSome?_cons, hn, hm]
    cases n <;> rfl

end Renaming

end LiteralFill
