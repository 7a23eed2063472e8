import LiteralFill.Proofs.Fill.Growth
import LiteralFill.Proofs.Packages.Spellings

/-!
Calls for packages, one after another. What was found in a directory is remembered with the import path under which it
was looked for first, and is the answer to all later calls that lead there. So calls answer like calls to a new database,
but for the import path; and the import paths are the same as well if each import path is that of the directory it leads
to.
-/

namespace LiteralFill

open PackageDb

/-- A call for a package. -/
inductive PackageCall
  | load (path : String)
  | loadDir (dir : Path)

namespace PackageCall

/-- The answer to a call, and what is remembered then. -/
def run (tree : FileTree) : PackageCall → PackageDb → Option Package × PackageDb
  | load path => PackageDb.load tree path
  | loadDir dir => PackageDb.loadDir tree dir

/-- What is remembered after calls. -/
def runAll (tree : FileTree) (calls : List PackageCall) (db : PackageDb) : PackageDb :=
  calls.foldl (fun db call => (call.run tree db).2) db

end PackageCall

/-- A package of the same files under another import path. -/
def Package.under (path : String) (p : Package) : Package := ofFiles path p.dir p.files

namespace SamePackage

theorem refl (x : Option Package) : SamePackage x x := rfl

theorem trans {x y z : Option Package} (h : SamePackage x y) (h' : SamePackage y z) : SamePackage x z := Eq.trans h h'

theorem isSome {x y : Option Package} (h : SamePackage x y) : x.isSome = y.isSome := by
  have hsome := congrArg Option.isSome h
  rwa [Option.isSome_map, Option.isSome_map] at hsome

theorem path {p q : Package} (h : SamePackage (some p) (some q)) : p.path = q.path :=
  congrArg (·.1) (Option.some.inj h)

theorem orElse {x y : Option Package} (h : SamePackage x y) (z : Option Package) :
    SamePackage (x.orElse fun _ => z) (y.orElse fun _ => z) := by
  cases x <;> cases y
  · rfl
  · cases h
  · cases h
  · exact h

end SamePackage

namespace Package

variable {t : FileTree} {dir : Path}

/-- A directory holds the same package under all import paths. -/
theorem read_under (path path' : String) : (read t path dir).map (·.under path') = read t path' dir := by
  rw [read_eq, read_eq]
  split <;> rfl

theorem read_path {path : String} {p : Package} (h : read t path dir = some p) : p.path = path := by
  rw [read_eq] at h
  split at h
  · cases h
  · cases h
    rfl

theorem standard_under (path : String) : (standard path).map (·.under path) = standard path := by
  unfold standard
  cases standardSource path <;> rfl

theorem standard_path {path : String} {p : Package} (h : standard path = some p) : p.path = path := by
  obtain ⟨text, -, rfl⟩ := Option.map_eq_some_iff.mp h
  rfl

end Package

/-! ## What is remembered -/

variable (tree : FileTree) (db : PackageDb)

namespace PackageDb

/-- The import path of a directory; it is empty if none leads there. -/
def ownPath (dir : Path) : String := (db.importPathForDir dir).getD ""

/-- An import path under which a directory may be read: its own, or one that leads to it. -/
def MayName (path : String) (dir : Path) : Prop :=
  path = db.ownPath dir ∨ ∃ d, db.dirFor tree path = some d ∧ d.components = dir.components

/-- The package of a directory, under an import path that it may be read under. -/
def IsFound (dir : Path) (x : Option Package) : Prop :=
  ∃ path, db.MayName tree path dir ∧ SamePackage x (Package.read tree path dir)

/-- The package of an import path: what is found in the directory it leads to, or else what comes with the library. -/
def IsLoaded (path : String) (x : Option Package) : Prop :=
  ∃ found, SamePackage x (found.orElse fun _ => Package.standard path) ∧
    match db.dirFor tree path with
    | some dir => db.IsFound tree dir found
    | none => found = none

/-- What a database remembers that began as another one with nothing to remember. -/
structure Remembers (db' : PackageDb) : Prop where
  roots : db'.roots = db.roots
  modules : db'.modules = db.modules
  byDir : ∀ e ∈ db'.byDir, db.IsFound tree e.1 e.2
  byPath : ∀ e ∈ db'.byPath, db.IsLoaded tree e.1 e.2

variable {tree db}

theorem IsFound.of_components {dir dir' : Path} {x : Option Package} (h : db.IsFound tree dir x)
    (hdir : dir.components = dir'.components) : db.IsFound tree dir' x := by
  obtain ⟨path, hpath, hx⟩ := h
  have hown : db.ownPath dir = db.ownPath dir' := by
    unfold ownPath importPathForDir Path.relativeTo
    rw [hdir]
  refine ⟨path, ?_, hx.trans (Package.read_of_components hdir path)⟩
  rcases hpath with rfl | ⟨d, hd, hcomponents⟩
  · exact .inl hown
  · exact .inr ⟨d, hd, hcomponents.trans hdir⟩

namespace Remembers

variable {db' : PackageDb} (h : db.Remembers tree db')
include h

theorem dirFor (path : String) : db'.dirFor tree path = db.dirFor tree path := by
  unfold PackageDb.dirFor candidates moduleCandidate
  rw [h.roots, h.modules]

theorem ownPath (dir : Path) : db'.ownPath dir = db.ownPath dir := by
  unfold PackageDb.ownPath importPathForDir
  rw [h.roots, h.modules]

/-- A directory is found, and then remembered, under an import path that it may be read under. -/
theorem readDir {path : String} {dir : Path} (hpath : db.MayName tree path dir) :
    db.IsFound tree dir (db'.readDir tree path dir).1 ∧ db.Remembers tree (db'.readDir tree path dir).2 := by
  unfold PackageDb.readDir
  split
  · next x hseen =>
    obtain ⟨e, he, rfl⟩ := Option.map_eq_some_iff.mp hseen
    have hdir : (e.1 == dir) = true := by simpa using List.find?_some he
    exact ⟨(h.byDir e (List.mem_of_find?_eq_some he)).of_components (Path.beq_iff.mp hdir), h⟩
  · have hfound : db.IsFound tree dir (Package.read tree path dir) := ⟨path, hpath, .refl _⟩
    refine ⟨hfound, h.roots, h.modules, fun e he => ?_, h.byPath⟩
    rcases List.mem_append.mp he with he | he
    · exact h.byDir e he
    · rw [List.mem_singleton.mp he]
      exact hfound

theorem loadDir (dir : Path) :
    db.IsFound tree dir (db'.loadDir tree dir).1 ∧ db.Remembers tree (db'.loadDir tree dir).2 :=
  h.readDir (.inl (h.ownPath dir))

theorem load (path : String) :
    db.IsLoaded tree path (db'.load tree path).1 ∧ db.Remembers tree (db'.load tree path).2 := by
  cases hseen : db'.byPath.lookup path with
  | some x =>
    obtain ⟨l₁, l₂, hl, -⟩ := List.lookup_eq_some_iff.mp hseen
    rw [load_of_remembered tree hseen]
    exact ⟨h.byPath (path, x) (by simp [hl]), h⟩
  | none =>
    have hread : (match db.dirFor tree path with
        | some dir => db.IsFound tree dir (db'.readFor tree path).1
        | none => (db'.readFor tree path).1 = none) ∧ db.Remembers tree (db'.readFor tree path).2 := by
      cases hdir : db.dirFor tree path with
      | none =>
        rw [readFor_of_none ((h.dirFor path).trans hdir)]
        exact ⟨rfl, h⟩
      | some dir =>
        rw [readFor_of_some ((h.dirFor path).trans hdir)]
        exact h.readDir (.inr ⟨dir, hdir, rfl⟩)
    rw [load_of_new hseen]
    have hloaded : db.IsLoaded tree path ((db'.readFor tree path).1.orElse fun _ => Package.standard path) :=
      ⟨_, .refl _, hread.1⟩
    refine ⟨hloaded, hread.2.roots, hread.2.modules, hread.2.byDir, fun e he => ?_⟩
    rcases List.mem_append.mp he with he | he
    · exact hread.2.byPath e he
    · rw [List.mem_singleton.mp he]
      exact hloaded

end Remembers

end PackageDb

/-! ## Answers -/

namespace PackageCall

variable {tree db}

/-- An answer to a call, whatever calls came before. -/
def IsAnswer (tree : FileTree) (db : PackageDb) (x : Option Package) : PackageCall → Prop
  | load path => db.IsLoaded tree path x
  | loadDir dir => db.IsFound tree dir x

theorem run_isAnswer {db' : PackageDb} (h : db.Remembers tree db') (call : PackageCall) :
    call.IsAnswer tree db (call.run tree db').1 ∧ db.Remembers tree (call.run tree db').2 := by
  cases call with
  | load path => exact h.load path
  | loadDir dir => exact h.loadDir dir

theorem runAll_remembers {db' : PackageDb} (h : db.Remembers tree db') (calls : List PackageCall) :
    db.Remembers tree (runAll tree calls db') := by
  induction calls generalizing db' with
  | nil => exact h
  | cons call rest ih => exact ih (run_isAnswer h call).2

end PackageCall

namespace PackageDb

/-- A database that has not looked for anything yet. -/
def new (roots : List Path) (modules : List ModuleDir) : PackageDb := ⟨roots, modules, [], []⟩

/-- Each import path that leads to a package is that of its directory. -/
def NamesDirectories (tree : FileTree) (db : PackageDb) : Prop :=
  ∀ path dir, db.dirFor tree path = some dir → (Package.read tree path dir).isSome = true → db.ownPath dir = path

variable {tree db}

/-- A package that is found in a directory is the one there, under some import path. -/
theorem IsFound.under {dir : Path} {x : Option Package} (h : db.IsFound tree dir x) :
    ∃ path, ∀ path', SamePackage x ((Package.read tree path' dir).map (·.under path)) := by
  obtain ⟨path, -, hx⟩ := h
  refine ⟨path, fun path' => ?_⟩
  rw [Package.read_under]
  exact hx

/-- A package that is found in a directory has the import path of the directory, if it is the only one. -/
theorem IsFound.eq_read (hnames : db.NamesDirectories tree) {dir : Path} {x : Option Package}
    (h : db.IsFound tree dir x) : SamePackage x (Package.read tree (db.ownPath dir) dir) := by
  obtain ⟨path, rfl | ⟨d, hd, hcomponents⟩, hx⟩ := h
  · exact hx
  · have hsame := Package.read_of_components (t := tree) hcomponents path
    cases hread : (Package.read tree path d).isSome with
    | true =>
      have hown : db.ownPath dir = db.ownPath d := by
        unfold ownPath importPathForDir Path.relativeTo
        rw [hcomponents]
      rw [hown, hnames path d hd hread]
      exact hx
    | false =>
      have hnone : Package.read tree path dir = none := by
        rw [← Option.isNone_iff_eq_none, ← Option.not_isSome, ← hsame.isSome, hread]
        rfl
      rw [← Package.read_under path, hnone]
      rw [hnone] at hx
      exact hx

section

variable (tree) (roots : List Path) (modules : List ModuleDir)

theorem new_remembers : (new roots modules).Remembers tree (new roots modules) := ⟨rfl, rfl, nofun, nofun⟩

variable {path : String}

theorem new_load_of_none (h : (new roots modules).dirFor tree path = none) :
    ((new roots modules).load tree path).1 = Package.standard path := by
  rw [load_of_new rfl, readFor_of_none h]
  rfl

theorem new_load_of_some {dir : Path} (h : (new roots modules).dirFor tree path = some dir) :
    ((new roots modules).load tree path).1 =
      (Package.read tree path dir).orElse fun _ => Package.standard path := by
  rw [load_of_new rfl, readFor_of_some h]
  rfl

theorem new_load_path {package : Package} (h : ((new roots modules).load tree path).1 = some package) :
    package.path = path := by
  cases hdir : (new roots modules).dirFor tree path with
  | none => exact Package.standard_path (new_load_of_none tree roots modules hdir ▸ h)
  | some dir =>
    rw [new_load_of_some tree roots modules hdir] at h
    cases hread : Package.read tree path dir with
    | none => exact Package.standard_path (by simpa [hread] using h)
    | some found =>
      obtain rfl : found = package := by simpa [hread] using h
      exact Package.read_path hread

/-- A package is loaded with the import path under which its directory was looked at before. -/
theorem load_after_loadDir {dir : Path} (hdir : (new roots modules).dirFor tree path = some dir)
    (hread : (Package.read tree path dir).isSome = true) :
    (((new roots modules).loadDir tree dir).2.load tree path).1 =
      Package.read tree ((new roots modules).ownPath dir) dir := by
  have hseen : ((new roots modules).loadDir tree dir).2.seenDir dir =
      some (Package.read tree ((new roots modules).ownPath dir) dir) := readDir_remembered ..
  have hafter := (((new_remembers tree roots modules).loadDir dir).2.dirFor path).trans hdir
  rw [load_of_new rfl, readFor_of_some hafter]
  unfold readDir
  rw [hseen, ← Package.read_under path]
  cases hfound : Package.read tree path dir with
  | none => simp [hfound] at hread
  | some found => rfl

end

end PackageDb

namespace PackageCall

section

variable (tree : FileTree) (roots : List Path) (modules : List ModuleDir)

/-- An answer is that to a first call, under some import path. -/
theorem IsAnswer.under {call : PackageCall} {x : Option Package} (h : call.IsAnswer tree (.new roots modules) x) :
    ∃ path, SamePackage x ((call.run tree (.new roots modules)).1.map (·.under path)) := by
  cases call with
  | loadDir dir =>
    obtain ⟨path, hpath⟩ := IsFound.under h
    exact ⟨path, hpath _⟩
  | load path =>
    obtain ⟨found, hx, hfound⟩ := h
    cases hdir : (new roots modules).dirFor tree path with
    | none =>
      rw [hdir] at hfound
      obtain rfl : found = none := hfound
      refine ⟨path, ?_⟩
      rw [run, new_load_of_none tree roots modules hdir, Package.standard_under]
      exact hx
    | some dir =>
      rw [hdir] at hfound
      obtain ⟨path', hpath'⟩ := IsFound.under hfound
      have hsame := hpath' path
      rw [run, new_load_of_some tree roots modules hdir]
      cases hread : Package.read tree path dir with
      | none =>
        rw [hread] at hsame
        refine ⟨path, ?_⟩
        rw [show ((none : Option Package).orElse fun _ => Package.standard path) = Package.standard path from rfl,
          Package.standard_under]
        exact hx.trans (hsame.orElse _)
      | some package =>
        rw [hread] at hsame
        exact ⟨path', hx.trans (hsame.orElse _)⟩

/-- An answer is that to a first call, if each import path that leads to a package is that of its directory. -/
theorem IsAnswer.eq_first (hnames : (new roots modules).NamesDirectories tree) {call : PackageCall} {x : Option Package}
    (h : call.IsAnswer tree (.new roots modules) x) : SamePackage x (call.run tree (.new roots modules)).1 := by
  cases call with
  | loadDir dir => exact IsFound.eq_read hnames h
  | load path =>
    obtain ⟨found, hx, hfound⟩ := h
    cases hdir : (new roots modules).dirFor tree path with
    | none =>
      rw [hdir] at hfound
      obtain rfl : found = none := hfound
      rw [run, new_load_of_none tree roots modules hdir]
      exact hx
    | some dir =>
      rw [hdir] at hfound
      have hsame := IsFound.eq_read hnames hfound
      rw [run, new_load_of_some tree roots modules hdir]
      refine hx.trans (SamePackage.orElse (hsame.trans ?_) _)
      cases hread : (Package.read tree path dir).isSome with
      | true =>
        rw [hnames path dir hdir hread]
        exact .refl _
      | false =>
        have hnone : Package.read tree path dir = none := by simpa using hread
        rw [← Package.read_under path, hnone]
        exact .refl _

end

/-- After any calls a call has the answer that a new database gives, up to the import path of the package. All answers
are the same if and only if each import path that leads to a package is that of its directory, and it is then, and only
then, that all packages have the import path under which they are loaded. -/
theorem run_after_calls (tree : FileTree) (roots : List Path) (modules : List ModuleDir) :
    let db := new roots modules
    (∀ calls call, ∃ path,
      SamePackage (run tree call (runAll tree calls db)).1 ((run tree call db).1.map (·.under path))) ∧
    ((∀ calls call, SamePackage (run tree call (runAll tree calls db)).1 (run tree call db).1) ↔
      db.NamesDirectories tree) ∧
    ((∀ calls path package, ((runAll tree calls db).load tree path).1 = some package → package.path = path) ↔
      db.NamesDirectories tree) := by
  intro db
  have hanswer (calls : List PackageCall) (call : PackageCall) :
      call.IsAnswer tree db (run tree call (runAll tree calls db)).1 :=
    (run_isAnswer (runAll_remembers (new_remembers tree roots modules) calls) call).1
  have hsame (hnames : db.NamesDirectories tree) (calls : List PackageCall) (call : PackageCall) :=
    (hanswer calls call).eq_first tree roots modules hnames
  have hpaths (h : ∀ calls path package, ((runAll tree calls db).load tree path).1 = some package →
      package.path = path) : db.NamesDirectories tree := by
    intro path dir hdir hread
    have hload := load_after_loadDir tree roots modules hdir hread
    rw [← Package.read_under path] at hload
    obtain ⟨package, hpackage⟩ := Option.isSome_iff_exists.mp hread
    rw [hpackage] at hload
    exact h [loadDir dir] path _ hload
  have hloads (h : ∀ calls call, SamePackage (run tree call (runAll tree calls db)).1 (run tree call db).1)
      (calls : List PackageCall) (path : String) (package : Package)
      (hload : ((runAll tree calls db).load tree path).1 = some package) : package.path = path := by
    have hfirst := h calls (load path)
    rw [run, hload] at hfirst
    obtain ⟨first, hnew⟩ := Option.isSome_iff_exists.mp (hfirst.isSome.symm.trans rfl)
    rw [hnew] at hfirst
    rw [hfirst.path]
    exact new_load_path tree roots modules hnew
  exact ⟨fun calls call => (hanswer calls call).under tree roots modules, ⟨fun h => hpaths (hloads h), hsame⟩,
    ⟨hpaths, fun hnames => hloads (hsame hnames)⟩⟩

/-- A tree with one package, in a directory below `src`. -/
def onePackage : FileTree :=
  ⟨[(["src"], .directory), (["src", "q"], .directory), (["src", "q", "q.go"], .file (encodeText "package q\n"))], []⟩

-- the package has one import path below the root and another one as a module
example : (run onePackage (load "m") (.new [⟨"src"⟩] [⟨"m", ⟨"src/q"⟩⟩])).1.map (·.path) = some "m" ∧
    (run onePackage (load "m") (runAll onePackage [load "q"] (.new [⟨"src"⟩] [⟨"m", ⟨"src/q"⟩⟩]))).1.map (·.path) =
      some "q" := by
  decide +kernel

end PackageCall

end LiteralFill
