import LiteralFill.Proofs.Fill.Growth
import LiteralFill.Proofs.Packages.Spellings
import Mathlib.Data.List.Nodup
import Mathlib.Data.List.Pairwise

/-!
Import paths and directories. Where an import path leads is decided by the module with the longest path that it begins
with, and the search roots come in where that directory is missing. If no registered directory lies in another one, the
directory that an import path leads to lies in one of them only, and so it leads back.
-/

namespace LiteralFill

/-! ## Paths inside paths -/

namespace Path

/-- Neither path is the other one or inside it. -/
def IsApart (p q : Path) : Prop := ¬ p.components <+: q.components ∧ ¬ q.components <+: p.components

instance : DecidableRel IsApart := fun p q =>
  inferInstanceAs (Decidable (¬ p.components <+: q.components ∧ ¬ q.components <+: p.components))

theorem IsApart.symm {p q : Path} (h : p.IsApart q) : q.IsApart p := And.symm h

/-- What lies inside a path lies inside none that is apart from it. -/
theorem IsApart.not_inside {p q inner : Path} (h : p.IsApart q) (hp : p.components <+: inner.components) :
    ¬ q.components <+: inner.components := fun hq =>
  (List.prefix_or_prefix_of_prefix hp hq).elim h.1 h.2

theorem dropComponents_eq_some {cs base rest : List Component} :
    dropComponents cs base = some rest ↔ cs = base ++ rest := by
  induction base generalizing cs with
  | nil => cases cs <;> simp [dropComponents, eq_comm]
  | cons d base ih =>
    cases cs with
    | nil => simp [dropComponents]
    | cons c cs =>
      rw [dropComponents, List.cons_append, List.cons.injEq]
      split
      · next h => rw [ih, and_iff_right h]
      · next h => simp [h]

theorem relativeTo_eq_some {p base : Path} {inner : List Component} :
    p.relativeTo base = some inner ↔ p.components = base.components ++ inner := dropComponents_eq_some

theorem relativeTo_eq_none {p base : Path} (h : ¬ base.components <+: p.components) : p.relativeTo base = none :=
  Option.eq_none_iff_forall_ne_some.mpr fun inner hinner => h ⟨inner, (relativeTo_eq_some.mp hinner).symm⟩

end Path

/-! ## Import paths -/

/-- Every part of an import path between its slashes is an ordinary name. -/
def IsImportPath (path : String) : Prop := ∀ s ∈ (Path.mk path).segments, s ≠ "" ∧ s ≠ "." ∧ s ≠ ".."

instance : DecidablePred IsImportPath := fun path =>
  inferInstanceAs (Decidable (∀ s ∈ (Path.mk path).segments, s ≠ "" ∧ s ≠ "." ∧ s ≠ ".."))

namespace IsImportPath

variable {path : String} (h : IsImportPath path)
include h

theorem ne_empty : path ≠ "" := by
  rintro rfl
  exact (h "" (by decide)).1 rfl

theorem isAbsolute : (Path.mk path).isAbsolute = false := by
  refine Bool.eq_false_iff.mpr fun habsolute => ?_
  obtain ⟨s, rest, hsegments⟩ := Path.isAbsolute_iff.mp habsolute
  exact (h "" (by simp [hsegments])).1 rfl

theorem lead : (Path.mk path).lead = [] := by
  have hhead : (Path.mk path).segments.head? ≠ some "." := fun hhead =>
    (h "." (List.mem_of_mem_head? hhead)).2.1 rfl
  simp [Path.lead, h.isAbsolute, hhead]

theorem map_names : (Path.mk path).names.map Path.componentOf = (Path.mk path).segments.map .normal := by
  have hnames : (Path.mk path).names = (Path.mk path).segments :=
    List.filter_eq_self.mpr fun s hs => by simp [Path.isFiller, h s hs]
  rw [hnames]
  exact List.map_congr_left fun s hs => by simp [Path.componentOf, h s hs]

/-- The parts of an import path are joined to the components of a directory. -/
theorem components_join (dir : Path) :
    (dir.join path).components = dir.components ++ (Path.mk path).segments.map .normal := by
  by_cases hdir : dir.text = ""
  · have hjoin : dir.join path = ⟨path⟩ := by simp [Path.join, hdir]
    rw [hjoin, Path.text_eq_empty_iff.mp hdir, Path.components_eq, h.lead, h.map_names]
  · rw [Path.components_join h.isAbsolute hdir, h.map_names]

end IsImportPath

namespace PackageDb

/-- Names below a path are written behind it. -/
theorem importPath_normal {path : String} (hpath : path ≠ "") (names : List String) :
    importPath path (names.map .normal) = "/".intercalate (path :: names) := by
  induction names generalizing path with
  | nil => rfl
  | cons name names ih =>
    have hstep : importPath path ((name :: names).map .normal) =
        importPath (path ++ "/" ++ name) (names.map .normal) := by
      simp [importPath, hpath, Component.text]
    have hne : path ++ "/" ++ name ≠ "" := by simp
    rw [hstep, ih hne, String.intercalate_cons_append, String.intercalate_cons_cons]

end PackageDb

/-! ## Modules -/

/-- A module leads from its own path to its directory, and from a path below it to what is below the directory. -/
inductive ModuleDir.LeadsTo (m : ModuleDir) : String → Path → Prop
  | own : m.LeadsTo m.path m.dir
  | below (rest : String) : m.LeadsTo (m.path ++ "/" ++ rest) (m.dir.join rest)

namespace PackageDb

theorem moduleDirFor_eq_some {path : String} {m : ModuleDir} {dir : Path} :
    moduleDirFor path m = some dir ↔ m.LeadsTo path dir := by
  unfold moduleDirFor
  dsimp only
  constructor
  · intro h
    split at h
    · next hbegins =>
      obtain ⟨rest, hrest⟩ := List.isPrefixOf_iff_prefix.mp hbegins
      rw [← hrest, List.drop_left] at h
      split at h
      · cases h
        have hpath : path = m.path := String.toList_inj.mp (by simpa using hrest.symm)
        exact hpath ▸ .own
      · next inner =>
        cases h
        have hpath : path = m.path ++ "/" ++ String.ofList inner := String.toList_inj.mp (by simp [← hrest])
        rw [hpath]
        exact .below _
      · cases h
    · cases h
  · rintro (_ | rest)
    · simp
    · simp

end PackageDb

namespace ModuleDir.LeadsTo

variable {m : ModuleDir} {path : String} {dir : Path}

theorem path_prefix (h : m.LeadsTo path dir) : m.path.toList <+: path.toList := by
  cases h with
  | own => exact List.prefix_refl _
  | below rest =>
    rw [String.toList_append, String.toList_append, List.append_assoc]
    exact List.prefix_append _ _

/-- Where a module leads lies in its directory, and what is between them leads back. -/
theorem components (h : m.LeadsTo path dir) (hpath : IsImportPath path) :
    ∃ inner, dir.components = m.dir.components ++ inner ∧ PackageDb.importPath m.path inner = path := by
  cases h with
  | own => exact ⟨[], (List.append_nil _).symm, rfl⟩
  | below rest =>
    have hsegments : (Path.mk (m.path ++ "/" ++ rest)).segments =
        (Path.mk m.path).segments ++ (Path.mk rest).segments := by
      have htext : m.path ++ "/" ++ rest = String.ofList (m.path.toList ++ '/' :: rest.toList) :=
        String.toList_inj.mp (by simp)
      rw [htext, Path.segments_append, String.ofList_toList, String.ofList_toList]
    rw [IsImportPath, hsegments, List.forall_mem_append] at hpath
    have hrest : IsImportPath rest := hpath.2
    refine ⟨_, hrest.components_join m.dir, ?_⟩
    rw [PackageDb.importPath_normal (IsImportPath.ne_empty hpath.1),
      String.intercalate_cons_of_ne_nil (Path.segments_ne_nil _), Path.intercalate_segments]

end ModuleDir.LeadsTo

namespace PackageDb

variable {α : Type} {measure : α → Nat}

theorem lastGreatest_eq_none {xs : List α} : lastGreatest measure xs = none ↔ xs = [] := by
  cases xs with
  | nil => simp [lastGreatest]
  | cons a rest =>
    rw [lastGreatest]
    split
    · split <;> simp
    · simp

theorem lastGreatest_eq_some {xs : List α} {a : α} (h : lastGreatest measure xs = some a) :
    a ∈ xs ∧ ∀ b ∈ xs, measure b ≤ measure a := by
  induction xs generalizing a with
  | nil => cases h
  | cons c rest ih =>
    rw [lastGreatest] at h
    split at h
    · next b hb =>
      obtain ⟨hmem, hgreatest⟩ := ih hb
      split at h
      · next hlt =>
        cases h
        refine ⟨List.mem_cons_self, List.forall_mem_cons.mpr ⟨Nat.le_refl _, fun d hd => ?_⟩⟩
        exact Nat.le_trans (hgreatest d hd) (Nat.le_of_lt hlt)
      · next hle =>
        cases h
        exact ⟨List.mem_cons_of_mem _ hmem, List.forall_mem_cons.mpr ⟨Nat.le_of_not_lt hle, hgreatest⟩⟩
    · next hnone =>
      cases h
      rw [lastGreatest_eq_none.mp hnone]
      simp

/-- The module with the longest path of those that lead anywhere from an import path, and where it leads. -/
structure Chooses (db : PackageDb) (path : String) (m : ModuleDir) (dir : Path) : Prop where
  mem : m ∈ db.modules
  leads : m.LeadsTo path dir
  longest : ∀ other ∈ db.modules, ∀ d, other.LeadsTo path d → other.path.length ≤ m.path.length

/-- Of two beginnings of a text, the one with more bytes has more characters. -/
theorem length_le_of_prefix {p q : String} {w : List Char} (hp : p.toList <+: w) (hq : q.toList <+: w)
    (h : p.utf8ByteSize ≤ q.utf8ByteSize) : p.length ≤ q.length := by
  rcases List.prefix_or_prefix_of_prefix hp hq with hle | ⟨rest, hrest⟩
  · rw [← String.length_toList, ← String.length_toList]
    exact hle.length_le
  · have htext : p = q ++ String.ofList rest := String.toList_inj.mp (by simpa using hrest.symm)
    rw [htext, String.utf8ByteSize_append] at h
    have hempty : String.ofList rest = "" := String.utf8ByteSize_eq_zero_iff.mp (by omega)
    have hsame : p.length = q.length := by rw [htext, hempty, String.append_empty]
    exact Nat.le_of_eq hsame

variable {db : PackageDb} {path : String}

theorem moduleCandidate_eq_none (h : db.moduleCandidate path = none) {m : ModuleDir} (hm : m ∈ db.modules)
    (dir : Path) : ¬ m.LeadsTo path dir := by
  intro hdir
  unfold moduleCandidate at h
  rw [Option.map_eq_none_iff, lastGreatest_eq_none, List.filterMap_eq_nil_iff] at h
  have := h m hm
  rw [moduleDirFor_eq_some.mpr hdir] at this
  cases this

theorem exists_chooses_of_moduleCandidate {dir : Path} (h : db.moduleCandidate path = some dir) :
    ∃ m, db.Chooses path m dir := by
  unfold moduleCandidate at h
  obtain ⟨x, hx, rfl⟩ := Option.map_eq_some_iff.mp h
  obtain ⟨hmem, hgreatest⟩ := lastGreatest_eq_some hx
  obtain ⟨m, hm, hdir⟩ := List.mem_filterMap.mp hmem
  obtain ⟨dir, hown, rfl⟩ := Option.map_eq_some_iff.mp hdir
  have hleads := moduleDirFor_eq_some.mp hown
  refine ⟨m, hm, hleads, fun other hother d hd => ?_⟩
  have hin : (other.path.utf8ByteSize, d) ∈ db.modules.filterMap fun m =>
      (moduleDirFor path m).map fun dir => (m.path.utf8ByteSize, dir) :=
    List.mem_filterMap.mpr ⟨other, hother, by rw [moduleDirFor_eq_some.mpr hd]; rfl⟩
  exact length_le_of_prefix hd.path_prefix hleads.path_prefix (hgreatest _ hin)

/-- Only one module is chosen, as no two have the same path. -/
theorem Chooses.unique {m m' : ModuleDir} {dir dir' : Path} (h : db.Chooses path m dir) (h' : db.Chooses path m' dir')
    (hnodup : (db.modules.map (·.path)).Nodup) : dir = dir' := by
  have hlength : m.path.toList.length = m'.path.toList.length := by
    rw [String.length_toList, String.length_toList]
    exact Nat.le_antisymm (h'.longest m h.mem dir h.leads) (h.longest m' h'.mem dir' h'.leads)
  have hbegins : m.path.toList <+: m'.path.toList :=
    List.prefix_of_prefix_length_le h.leads.path_prefix h'.leads.path_prefix (Nat.le_of_eq hlength)
  have hpath : m.path = m'.path := String.toList_inj.mp (hbegins.eq_of_length hlength)
  obtain rfl : m = m' := List.inj_on_of_nodup_map hnodup h.mem h'.mem hpath
  have hdir := moduleDirFor_eq_some.mpr h.leads
  rw [moduleDirFor_eq_some.mpr h'.leads] at hdir
  exact (Option.some.inj hdir).symm

theorem Chooses.moduleCandidate {m : ModuleDir} {dir : Path} (h : db.Chooses path m dir)
    (hnodup : (db.modules.map (·.path)).Nodup) : db.moduleCandidate path = some dir := by
  cases hcandidate : db.moduleCandidate path with
  | none => exact absurd h.leads (moduleCandidate_eq_none hcandidate h.mem dir)
  | some dir' =>
    obtain ⟨m', h'⟩ := exists_chooses_of_moduleCandidate hcandidate
    rw [h.unique h' hnodup]

/-! ## Registered directories -/

/-- A database as it is made: roots and modules are registered in some order, and packages are loaded in between. -/
inductive IsBuilt : PackageDb → Prop
  | empty : IsBuilt .empty
  | addRoot {db : PackageDb} (root : Path) (h : IsBuilt db) : IsBuilt (db.addRoot root)
  | addModule {db : PackageDb} (path : String) (dir : Path) (h : IsBuilt db) : IsBuilt (db.addModule path dir)
  | discoverModule {db : PackageDb} (tree : FileTree) (start : Path) (h : IsBuilt db) :
      IsBuilt (db.discoverModule tree start).2
  | load {db : PackageDb} (tree : FileTree) (path : String) (h : IsBuilt db) : IsBuilt (db.load tree path).2
  | loadDir {db : PackageDb} (tree : FileTree) (dir : Path) (h : IsBuilt db) : IsBuilt (db.loadDir tree dir).2

theorem nodup_addModule (h : (db.modules.map (·.path)).Nodup) (path : String) (dir : Path) :
    ((db.addModule path dir).modules.map (·.path)).Nodup := by
  rw [addModule, List.map_append, List.nodup_append]
  refine ⟨h.sublist (List.filter_sublist.map _), by simp, ?_⟩
  simp only [List.mem_map, List.mem_filter, bne_iff_ne, ne_eq, List.map_cons, List.map_nil, List.mem_singleton]
  rintro _ ⟨m, ⟨-, hne⟩, rfl⟩ _ rfl
  exact hne

theorem IsBuilt.nodup (h : db.IsBuilt) : (db.modules.map (·.path)).Nodup := by
  induction h with
  | empty => exact .nil
  | @addRoot db root h ih =>
    rw [PackageDb.addRoot]
    split <;> exact ih
  | addModule path dir h ih => exact nodup_addModule ih path dir
  | discoverModule tree start h ih =>
    rw [PackageDb.discoverModule]
    split
    · exact nodup_addModule ih _ _
    · exact ih
  | @load db tree path h ih =>
    rw [(load_growsTo tree path db).modules]
    exact ih
  | @loadDir db tree dir h ih =>
    rw [(loadDir_growsTo tree dir db).modules]
    exact ih

/-- The directories of all modules and the roots. -/
def directories (db : PackageDb) : List Path := db.modules.map (·.dir) ++ db.roots

/-- The directory of an import path below the first root that has it. -/
def inRoots (db : PackageDb) (tree : FileTree) (path : String) : Option Path :=
  (db.roots.map (·.join path)).find? tree.isDirectory

section

variable {tree : FileTree} {m : ModuleDir} {dir : Path}

theorem dirFor_of_chooses (h : db.Chooses path m dir) (hnodup : (db.modules.map (·.path)).Nodup) :
    db.dirFor tree path = if tree.isDirectory dir then some dir else db.inRoots tree path := by
  rw [dirFor, candidates, h.moduleCandidate hnodup, Option.toList_some, List.singleton_append, List.find?_cons]
  cases tree.isDirectory dir <;> rfl

theorem dirFor_of_missing (hnodup : (db.modules.map (·.path)).Nodup)
    (h : ∀ m dir, db.Chooses path m dir → tree.isDirectory dir = false) :
    db.dirFor tree path = db.inRoots tree path := by
  cases hcandidate : db.moduleCandidate path with
  | none =>
    rw [dirFor, candidates, hcandidate]
    rfl
  | some dir =>
    obtain ⟨m, hm⟩ := exists_chooses_of_moduleCandidate hcandidate
    rw [dirFor_of_chooses hm hnodup, h m dir hm]
    rfl

/-- What an import path leads to is where the chosen module leads or lies below a root. -/
theorem dirFor_cases (hnodup : (db.modules.map (·.path)).Nodup) (h : db.dirFor tree path = some dir) :
    (∃ m, db.Chooses path m dir) ∨ db.inRoots tree path = some dir := by
  by_cases hmissing : ∀ m dir, db.Chooses path m dir → tree.isDirectory dir = false
  · exact .inr ((dirFor_of_missing hnodup hmissing).symm.trans h)
  · simp only [not_forall, Bool.not_eq_false] at hmissing
    obtain ⟨m, own, hm, hown⟩ := hmissing
    rw [dirFor_of_chooses hm hnodup, hown] at h
    exact .inl ⟨m, Option.some.inj h ▸ hm⟩

/-- The order of the modules does not matter. -/
theorem dirFor_perm {others : PackageDb} (hnodup : (db.modules.map (·.path)).Nodup)
    (hmodules : others.modules.Perm db.modules) (hroots : others.roots = db.roots) :
    others.dirFor tree path = db.dirFor tree path := by
  have hchooses : ∀ m dir, others.Chooses path m dir ↔ db.Chooses path m dir := by
    refine fun m dir => ⟨fun h => ⟨hmodules.mem_iff.mp h.mem, h.leads, fun other hother => ?_⟩,
      fun h => ⟨hmodules.mem_iff.mpr h.mem, h.leads, fun other hother => ?_⟩⟩
    · exact h.longest other (hmodules.mem_iff.mpr hother)
    · exact h.longest other (hmodules.mem_iff.mp hother)
  have hnodup' : (others.modules.map (·.path)).Nodup := (hmodules.map _).nodup_iff.mpr hnodup
  have hinRoots : others.inRoots tree path = db.inRoots tree path := by rw [inRoots, inRoots, hroots]
  by_cases hchosen : ∃ m dir, db.Chooses path m dir
  · obtain ⟨m, dir, hm⟩ := hchosen
    rw [dirFor_of_chooses ((hchooses m dir).mpr hm) hnodup', dirFor_of_chooses hm hnodup, hinRoots]
  · have hmissing : ∀ m dir, db.Chooses path m dir → tree.isDirectory dir = false :=
      fun m dir hm => absurd ⟨m, dir, hm⟩ hchosen
    rw [dirFor_of_missing hnodup' fun m dir hm => hmissing m dir ((hchooses m dir).mp hm),
      dirFor_of_missing hnodup hmissing, hinRoots]

theorem inRoots_eq_some (h : db.inRoots tree path = some dir) : ∃ root ∈ db.roots, dir = root.join path := by
  obtain ⟨root, hroot, hjoin⟩ := List.mem_map.mp (List.mem_of_find?_eq_some h)
  exact ⟨root, hroot, hjoin.symm⟩

variable (hapart : db.directories.Pairwise Path.IsApart)
include hapart

/-- A registered directory is apart from all others. -/
theorem apart_of_directories {before after : List Path} {own : Path} (h : db.directories = before ++ own :: after) :
    ∀ d ∈ before ++ after, own.IsApart d := by
  rw [h, List.pairwise_middle Path.IsApart.symm] at hapart
  exact (List.pairwise_cons.mp hapart).1

/-- A directory in that of a module has the import path that the module gives it. -/
theorem importPathForDir_of_module (hm : m ∈ db.modules) {inner : List Component}
    (hdir : dir.components = m.dir.components ++ inner) : db.importPathForDir dir = some (importPath m.path inner) := by
  obtain ⟨before, after, hmodules⟩ := List.append_of_mem hm
  have hdirectories : db.directories = before.map (·.dir) ++ m.dir :: (after.map (·.dir) ++ db.roots) := by
    simp [directories, hmodules]
  have hothers : ∀ other ∈ before ++ after, dir.relativeTo other.dir = none := by
    intro other hother
    have hown : m.dir.IsApart other.dir := by
      refine apart_of_directories hapart hdirectories _ ?_
      rw [← List.append_assoc, ← List.map_append]
      exact List.mem_append_left _ (List.mem_map_of_mem hother)
    exact Path.relativeTo_eq_none (hown.not_inside ⟨inner, hdir.symm⟩)
  rw [List.forall_mem_append] at hothers
  have honly : (db.modules.filterMap fun m =>
      (dir.relativeTo m.dir).map fun inner => (m.dir.text.utf8ByteSize, importPath m.path inner)) =
      [(m.dir.text.utf8ByteSize, importPath m.path inner)] := by
    rw [hmodules, List.filterMap_append, List.filterMap_cons, Path.relativeTo_eq_some.mpr hdir,
      List.filterMap_eq_nil_iff.mpr fun other hother => by rw [hothers.1 other hother]; rfl,
      List.filterMap_eq_nil_iff.mpr fun other hother => by rw [hothers.2 other hother]; rfl]
    rfl
  unfold importPathForDir
  rw [honly]
  rfl

/-- A directory below a root has the import path that leads to it from there. -/
theorem importPathForDir_of_root {root : Path} (hroot : root ∈ db.roots) {inner : List Component}
    (hdir : dir.components = root.components ++ inner) (hne : importPath "" inner ≠ "") :
    db.importPathForDir dir = some (importPath "" inner) := by
  obtain ⟨before, after, hroots⟩ := List.append_of_mem hroot
  have hdirectories : db.directories = (db.modules.map (·.dir) ++ before) ++ root :: after := by
    rw [directories, hroots, List.append_assoc]
  have hothers : ∀ other ∈ db.modules.map (·.dir) ++ before, dir.relativeTo other = none := by
    intro other hother
    have hown : root.IsApart other := apart_of_directories hapart hdirectories other (List.mem_append_left _ hother)
    exact Path.relativeTo_eq_none (hown.not_inside ⟨inner, hdir.symm⟩)
  rw [List.forall_mem_append, List.forall_mem_map] at hothers
  have hmodules : (db.modules.filterMap fun m =>
      (dir.relativeTo m.dir).map fun inner => (m.dir.text.utf8ByteSize, importPath m.path inner)) = [] :=
    List.filterMap_eq_nil_iff.mpr fun m hm => by rw [hothers.1 m hm]; rfl
  unfold importPathForDir
  rw [hmodules, hroots]
  dsimp only [lastGreatest]
  rw [List.findSome?_append, List.findSome?_eq_none_iff.mpr fun other hother => by rw [hothers.2 other hother],
    Option.none_or, List.findSome?_cons, Path.relativeTo_eq_some.mpr hdir]
  simp [hne]

end

/-- The parts of an import path below a root lead back to it. -/
theorem components_join_root (hpath : IsImportPath path) (root : Path) :
    ∃ inner, (root.join path).components = root.components ++ inner ∧ importPath "" inner = path := by
  refine ⟨_, hpath.components_join root, ?_⟩
  have htext := Path.intercalate_segments ⟨path⟩
  cases hsegments : (Path.mk path).segments with
  | nil => exact absurd hsegments (Path.segments_ne_nil _)
  | cons name names =>
    have hname : name ≠ "" := (hpath name (by simp [hsegments])).1
    have hstep : importPath "" ((name :: names).map .normal) = importPath name (names.map .normal) := by
      simp [importPath, Component.text]
    rw [hsegments] at htext
    rw [hstep, importPath_normal hname, htext]

/-! ## Import paths and back -/

/-- An import path of ordinary names leads to a directory that leads back to it, if no registered directory is another
one or inside it. It leads where the longest module takes it that is the import path or ends before a slash in it,
whatever the order of the modules, and to the first root that has it exactly if there is no such module or no such
directory. -/
theorem importPathForDir_dirFor {tree : FileTree} (hbuilt : db.IsBuilt)
    (hapart : db.directories.Pairwise Path.IsApart) (hpath : IsImportPath path) :
    (∀ dir, db.dirFor tree path = some dir → db.importPathForDir dir = some path) ∧
    (∀ m dir, db.Chooses path m dir →
      db.dirFor tree path = if tree.isDirectory dir then some dir else db.inRoots tree path) ∧
    ((∀ m ∈ db.modules, ∀ dir, ¬ m.LeadsTo path dir) → db.dirFor tree path = db.inRoots tree path) ∧
    (∀ dir, db.inRoots tree path = some dir →
      (db.dirFor tree path = some dir ↔ ∀ m own, db.Chooses path m own → tree.isDirectory own = false)) ∧
    ∀ others : PackageDb, others.modules.Perm db.modules → others.roots = db.roots →
      others.dirFor tree path = db.dirFor tree path := by
  have hnodup := hbuilt.nodup
  refine ⟨fun dir hdir => ?_, fun m dir h => dirFor_of_chooses h hnodup, fun hnone => ?_, fun dir hdir => ⟨?_, ?_⟩,
    fun others => dirFor_perm hnodup⟩
  · rcases dirFor_cases hnodup hdir with ⟨m, hm⟩ | hroots
    · obtain ⟨inner, hinner, hback⟩ := hm.leads.components hpath
      rw [importPathForDir_of_module hapart hm.mem hinner, hback]
    · obtain ⟨root, hroot, rfl⟩ := inRoots_eq_some hroots
      obtain ⟨inner, hinner, hback⟩ := components_join_root hpath root
      rw [importPathForDir_of_root hapart hroot hinner (hback ▸ hpath.ne_empty), hback]
  · exact dirFor_of_missing hnodup fun m dir hm => absurd hm.leads (hnone m hm.mem dir)
  · intro hdirFor m own hm
    refine Bool.eq_false_iff.mpr fun hown => ?_
    rw [dirFor_of_chooses hm hnodup, hown] at hdirFor
    obtain rfl : own = dir := Option.some.inj hdirFor
    -- the directory would lie both in that of the module and below the root
    obtain ⟨root, hroot, rfl⟩ := inRoots_eq_some hdir
    obtain ⟨inner, hinner, -⟩ := hm.leads.components hpath
    have hroots : m.dir.IsApart root :=
      (List.pairwise_append.mp hapart).2.2 m.dir (List.mem_map_of_mem hm.mem) root hroot
    exact hroots.not_inside ⟨inner, hinner.symm⟩ ⟨_, (hpath.components_join root).symm⟩
  · intro hmissing
    rw [dirFor_of_missing hnodup hmissing, hdir]

/-- A root and two modules, one of them below the other by its path but not by its directory. -/
def nestedModules : PackageDb := ((empty.addRoot ⟨"src"⟩).addModule "m/sub" ⟨"other/"⟩).addModule "m" ⟨"./app"⟩

/-- Directories below that of the longer module and below the root. -/
def nestedTree : FileTree :=
  ⟨[["src"], ["src", "m"], ["src", "m", "lib"], ["app"], ["other"], ["other", "x"]].map (·, .directory), []⟩

/-- The longer module decides about one import path, and the root about one whose directory is missing. -/
theorem importPathForDir_nestedModules :
    nestedModules.IsBuilt ∧ nestedModules.directories.Pairwise Path.IsApart ∧
      IsImportPath "m/sub/x" ∧ IsImportPath "m/lib" ∧
      (∃ dir, nestedModules.dirFor nestedTree "m/sub/x" = some dir ∧ dir.text = "other/x" ∧
        nestedModules.importPathForDir dir = some "m/sub/x") ∧
      ∃ dir, nestedModules.dirFor nestedTree "m/lib" = some dir ∧ dir.text = "src/m/lib" ∧
        nestedModules.importPathForDir dir = some "m/lib" := by
  have hbuilt : nestedModules.IsBuilt := .addModule _ _ (.addModule _ _ (.addRoot _ .empty))
  have hapart : nestedModules.directories.Pairwise Path.IsApart := by decide +kernel
  have hsub : IsImportPath "m/sub/x" := by decide +kernel
  have hlib : IsImportPath "m/lib" := by decide +kernel
  have hdir : ∀ {path text : String},
      (nestedModules.dirFor nestedTree path).map (·.text) = some text → IsImportPath path →
        ∃ dir, nestedModules.dirFor nestedTree path = some dir ∧ dir.text = text ∧
          nestedModules.importPathForDir dir = some path := by
    intro path text h hpath
    obtain ⟨dir, hdir, htext⟩ := Option.map_eq_some_iff.mp h
    exact ⟨dir, hdir, htext, (importPathForDir_dirFor hbuilt hapart hpath).1 dir hdir⟩
  exact ⟨hbuilt, hapart, hsub, hlib, hdir (by decide +kernel) hsub, hdir (by decide +kernel) hlib⟩

end PackageDb

end LiteralFill
