import LiteralFill.Proofs.Packages.Calls
import LiteralFill.Proofs.Packages.Directories
import Mathlib.Algebra.Order.BigOperators.Group.List
import Mathlib.Algebra.Order.Group.Nat
import Mathlib.Tactic.Tauto

/-!
Modules around a directory. The import path of a directory is given by the module whose directory is written longest of
those that contain it, the last one registered if there are several. It is the innermost one, in every order of the
modules, exactly if what is written longest around the directory of a module gives this directory the path of the module.
A directory can be written as long as one likes, so how it is written never matters only if all modules around each
other agree.
-/

namespace LiteralFill

/-! ## Modules that contain a directory -/

namespace ModuleDir

/-- A directory is that of the module or lies in it. -/
def Contains (m : ModuleDir) (dir : Path) : Prop := m.dir.components <+: dir.components

/-- The import path that a module gives to a directory in its own. -/
def importPathOf (m : ModuleDir) (dir : Path) : String :=
  PackageDb.importPath m.path (dir.components.drop m.dir.components.length)

/-- What a module says, however its directory is written. -/
def mapping (m : ModuleDir) : String × List Component := (m.path, m.dir.components)

/-- Of the modules that contain a directory, one whose directory has the most components. -/
structure Owns (modules : List ModuleDir) (dir : Path) (m : ModuleDir) : Prop where
  mem : m ∈ modules
  contains : m.Contains dir
  innermost : ∀ other ∈ modules, other.Contains dir → other.dir.components.length ≤ m.dir.components.length

/-- Of the modules that contain a directory, one whose directory is written longest. -/
structure IsLongest (modules : List ModuleDir) (dir : Path) (m : ModuleDir) : Prop where
  mem : m ∈ modules
  contains : m.Contains dir
  longest : ∀ other ∈ modules, other.Contains dir → other.dir.text.utf8ByteSize ≤ m.dir.text.utf8ByteSize

variable {m n : ModuleDir} {dir : Path} {modules : List ModuleDir}

theorem Contains.relativeTo (h : m.Contains dir) :
    dir.relativeTo m.dir = some (dir.components.drop m.dir.components.length) := by
  obtain ⟨inner, hinner⟩ := h
  rw [Path.relativeTo_eq_some, ← hinner, List.drop_left]

theorem contains_self (m : ModuleDir) : m.Contains m.dir := List.prefix_refl _

theorem importPathOf_self (m : ModuleDir) : m.importPathOf m.dir = m.path := by
  rw [importPathOf, List.drop_length]
  rfl

/-- A module around another one gives the directories in that one the path that it gives to it, and what is below. -/
theorem Contains.importPathOf (h : m.Contains n.dir) (hn : n.Contains dir) :
    m.importPathOf dir = PackageDb.importPath (m.importPathOf n.dir)
      (dir.components.drop n.dir.components.length) := by
  obtain ⟨inner, hinner⟩ := h
  obtain ⟨rest, hrest⟩ := hn
  rw [ModuleDir.importPathOf, ModuleDir.importPathOf, ← hrest, ← hinner, List.append_assoc, List.drop_left,
    List.drop_left, ← List.append_assoc, List.drop_left, PackageDb.importPath, PackageDb.importPath,
    PackageDb.importPath, List.foldl_append]

theorem Contains.trans (h : m.Contains n.dir) (hn : n.Contains dir) : m.Contains dir := List.IsPrefix.trans h hn

/-- Of two modules that contain a directory, the one with fewer components contains the other one. -/
theorem Contains.of_length_le (h : m.Contains dir) (hn : n.Contains dir)
    (hlength : m.dir.components.length ≤ n.dir.components.length) : m.Contains n.dir :=
  List.prefix_of_prefix_length_le h hn hlength

theorem owns_self (hm : m ∈ modules) : Owns modules m.dir m :=
  ⟨hm, m.contains_self, fun _ _ h => h.length_le⟩

section

variable (h : n.mapping = m.mapping)
include h

theorem contains_of_mapping : n.Contains dir ↔ m.Contains dir := by
  rw [Contains, Contains, (Prod.mk.inj h).2]

theorem importPathOf_of_mapping : n.importPathOf dir = m.importPathOf dir := by
  rw [importPathOf, importPathOf, (Prod.mk.inj h).1, (Prod.mk.inj h).2]

end

end ModuleDir

namespace PackageDb

open ModuleDir

variable {α : Type} {measure : α → Nat} {m : ModuleDir} {dir : Path} {roots : List Path} {modules : List ModuleDir}

/-! ## The module that is used -/

/-- A database with some roots after modules have been registered in some order. -/
def registered (roots : List Path) (modules : List ModuleDir) : PackageDb :=
  modules.foldl (fun db m => db.addModule m.path m.dir) (.new roots [])

theorem registered_eq (h : (modules.map (·.path)).Nodup) : registered roots modules = .new roots modules := by
  induction modules using List.reverseRecOn with
  | nil => rfl
  | append_singleton before m ih =>
    rw [List.map_append, List.nodup_append] at h
    have hkept : (before.filter fun other => other.path != m.path) = before := by
      rw [List.filter_eq_self]
      intro other hother
      exact bne_iff_ne.mpr (h.2.2 _ (List.mem_map_of_mem hother) _ (by simp))
    have hbefore := ih h.1
    rw [registered] at hbefore ⊢
    rw [List.foldl_append, hbefore, List.foldl_cons, List.foldl_nil, addModule, new]
    simp only [hkept]
    rfl

theorem lastGreatest_concat {xs : List α} {a : α} (h : ∀ b ∈ xs, measure b ≤ measure a) :
    lastGreatest measure (xs ++ [a]) = some a := by
  induction xs with
  | nil => rfl
  | cons b xs ih =>
    rw [List.forall_mem_cons] at h
    rw [List.cons_append, lastGreatest, ih h.2]
    simp [Nat.not_lt_of_le h.1]

/-- The import paths that modules give to a directory, with the lengths that decide among them. -/
def given (modules : List ModuleDir) (dir : Path) : List (Nat × String) :=
  modules.filterMap fun m =>
    (dir.relativeTo m.dir).map fun inner => (m.dir.text.utf8ByteSize, importPath m.path inner)

/-- The import path of a directory below the first root above it. -/
def belowRoots (roots : List Path) (dir : Path) : Option String :=
  roots.findSome? fun root =>
    match dir.relativeTo root with
    | some inner =>
      let path := importPath "" inner
      if path.isEmpty then none else some path
    | none => none

theorem importPathForDir_new (roots : List Path) (modules : List ModuleDir) (dir : Path) :
    (new roots modules).importPathForDir dir =
      match lastGreatest (·.1) (given modules dir) with
      | some (_, path) => some path
      | none => belowRoots roots dir := rfl

theorem mem_given {x : Nat × String} : x ∈ given modules dir ↔
    ∃ m ∈ modules, m.Contains dir ∧ x = (m.dir.text.utf8ByteSize, m.importPathOf dir) := by
  rw [given, List.mem_filterMap]
  refine exists_congr fun m => and_congr_right fun _ => ?_
  by_cases h : m.Contains dir
  · rw [h.relativeTo, Option.map_some, Option.some.injEq, and_iff_right h, eq_comm]
    rfl
  · rw [Path.relativeTo_eq_none h]
    simp [h]

/-- A directory that no module contains has its import path from the roots. -/
theorem importPathForDir_of_outside (h : ∀ m ∈ modules, ¬ m.Contains dir) :
    (new roots modules).importPathForDir dir = belowRoots roots dir := by
  have hnone : given modules dir = [] := List.eq_nil_iff_forall_not_mem.mpr fun x hx => by
    obtain ⟨m, hm, hcontains, -⟩ := mem_given.mp hx
    exact h m hm hcontains
  rw [importPathForDir_new, hnone]
  rfl

/-- The import path of a directory is given by a module that is written longest. -/
theorem importPathForDir_of_contains (roots : List Path) (hm : m ∈ modules) (h : m.Contains dir) :
    ∃ used, IsLongest modules dir used ∧ (new roots modules).importPathForDir dir = some (used.importPathOf dir) := by
  rw [importPathForDir_new]
  cases hgreatest : lastGreatest (·.1) (given modules dir) with
  | none =>
    have hin := mem_given.mpr ⟨m, hm, h, rfl⟩
    rw [lastGreatest_eq_none.mp hgreatest] at hin
    cases hin
  | some x =>
    obtain ⟨hmem, hlongest⟩ := lastGreatest_eq_some hgreatest
    obtain ⟨used, hused, hcontains, rfl⟩ := mem_given.mp hmem
    exact ⟨used, ⟨hused, hcontains, fun other hother hinside => hlongest _ (mem_given.mpr ⟨other, hother, hinside, rfl⟩)⟩,
      rfl⟩

/-- The module registered last is used if none is written longer. -/
theorem importPathForDir_concat (h : IsLongest (modules ++ [m]) dir m) :
    (new roots (modules ++ [m])).importPathForDir dir = some (m.importPathOf dir) := by
  have hlast : given (modules ++ [m]) dir =
      given modules dir ++ [(m.dir.text.utf8ByteSize, m.importPathOf dir)] := by
    rw [given, List.filterMap_append, List.filterMap_cons, h.contains.relativeTo]
    rfl
  rw [importPathForDir_new, hlast, lastGreatest_concat]
  rintro x hx
  obtain ⟨other, hother, hcontains, rfl⟩ := mem_given.mp hx
  exact h.longest other (List.mem_append_left _ hother) hcontains

/-! ## In every order -/

theorem isLongest_perm {order : List ModuleDir} (h : order.Perm modules) :
    IsLongest order dir m ↔ IsLongest modules dir m :=
  ⟨fun hm => ⟨h.mem_iff.mp hm.mem, hm.contains, fun other hother => hm.longest other (h.mem_iff.mpr hother)⟩,
    fun hm => ⟨h.mem_iff.mpr hm.mem, hm.contains, fun other hother => hm.longest other (h.mem_iff.mp hother)⟩⟩

/-- A module that is written longest is used if it is registered last. -/
theorem exists_order_of_isLongest (roots : List Path) (h : IsLongest modules dir m) : ∃ order, order.Perm modules ∧
    (new roots order).importPathForDir dir = some (m.importPathOf dir) := by
  obtain ⟨before, after, rfl⟩ := List.append_of_mem h.mem
  have hperm : ((before ++ after) ++ [m]).Perm (before ++ m :: after) := by
    rw [List.append_assoc]
    exact (List.perm_append_singleton m after).append_left before
  exact ⟨(before ++ after) ++ [m], hperm, importPathForDir_concat ((isLongest_perm hperm).mpr h)⟩

/-- The innermost module is used in every order, if the modules written longest around a directory of a module agree with
that module. -/
theorem importPathForDir_of_owns (hagree : ∀ n ∈ modules, ∀ m, IsLongest modules n.dir m → m.importPathOf n.dir = n.path)
    {owner : ModuleDir} (h : Owns modules dir owner) :
    (new roots modules).importPathForDir dir = some (owner.importPathOf dir) := by
  obtain ⟨used, hused, hanswer⟩ := importPathForDir_of_contains roots h.mem h.contains
  have haround : used.Contains owner.dir :=
    hused.contains.of_length_le h.contains (h.innermost used hused.mem hused.contains)
  have hlongest : IsLongest modules owner.dir used :=
    ⟨hused.mem, haround, fun other hother hcontains => hused.longest other hother (hcontains.trans h.contains)⟩
  rw [hanswer, haround.importPathOf h.contains, hagree owner h.mem used hlongest]
  rfl

/-! ## However directories are written -/

/-- A directory that is written at all can be written longer than any bound. -/
theorem exists_longer {p : Path} (h : p.text ≠ "") (bound : Nat) :
    ∃ q : Path, q.components = p.components ∧ bound < q.text.utf8ByteSize := by
  induction bound with
  | zero => exact ⟨p, rfl, Nat.pos_of_ne_zero fun hsize => h (String.utf8ByteSize_eq_zero_iff.mp hsize)⟩
  | succ bound ih =>
    obtain ⟨q, hcomponents, hlong⟩ := ih
    have hpoint : (Path.mk ".").isAbsolute = false := by decide
    have htext : q.text ≠ "" := by
      intro hempty
      rw [hempty] at hlong
      cases hlong
    refine ⟨q.join ".", ?_, ?_⟩
    · rw [Path.components_join hpoint htext, hcomponents]
      exact List.append_nil _
    · have hsize : ".".utf8ByteSize = 1 := rfl
      rw [Path.join_eq hpoint htext]
      split <;> simp only [String.utf8ByteSize_append, hsize] <;> omega

/-- A module is used wherever it contains a directory, if its own is written long enough. -/
theorem exists_respelling (roots : List Path) (hm : m ∈ modules) (h : m.dir.text ≠ "") :
    ∃ others, others.map mapping = modules.map mapping ∧ ∀ dir, m.Contains dir →
      (new roots others).importPathForDir dir = some (m.importPathOf dir) := by
  obtain ⟨before, after, rfl⟩ := List.append_of_mem hm
  obtain ⟨q, hq, hlong⟩ := exists_longer h ((before ++ after).map (·.dir.text.utf8ByteSize)).sum
  have hsame : (ModuleDir.mk m.path q).mapping = m.mapping := by rw [mapping, hq]; rfl
  refine ⟨before ++ ⟨m.path, q⟩ :: after, by simp [hsame], fun dir hdir => ?_⟩
  have hcontains := (contains_of_mapping hsame).mpr hdir
  have hrespelled : ⟨m.path, q⟩ ∈ before ++ ⟨m.path, q⟩ :: after := by simp
  obtain ⟨used, hused, hanswer⟩ := importPathForDir_of_contains roots hrespelled hcontains
  have hlongest := hused.longest _ hrespelled hcontains
  have hmem : used ∈ before ++ after ∨ used = ⟨m.path, q⟩ := by
    have := hused.mem
    simp only [List.mem_append, List.mem_cons] at this ⊢
    tauto
  rcases hmem with hmem | rfl
  · have hle := List.le_sum_of_mem (List.mem_map_of_mem (f := fun m : ModuleDir => m.dir.text.utf8ByteSize) hmem)
    exact absurd (Nat.lt_of_lt_of_le hlong hlongest) (Nat.not_lt_of_le hle)
  · rw [hanswer, importPathOf_of_mapping hsame]

theorem belowRoots_of_components {others : List Path} (h : others.map (·.components) = roots.map (·.components))
    (dir : Path) : belowRoots others dir = belowRoots roots dir := by
  have hmap (roots : List Path) : belowRoots roots dir = (roots.map (·.components)).findSome? fun base =>
      match Path.dropComponents dir.components base with
      | some inner =>
        let path := importPath "" inner
        if path.isEmpty then none else some path
      | none => none := by
    rw [List.findSome?_map]
    rfl
  rw [hmap, hmap, h]

/-- Two modules that contain a directory give it the same path, if modules agree on what lies in both. The empty path is
left aside, as there is no other way to write it. -/
theorem importPathOf_eq {n : ModuleDir} (hagree : ∀ m ∈ modules, m.dir.text ≠ "" → ∀ n ∈ modules, m.Contains n.dir →
      m.importPathOf n.dir = n.path)
    (hm : m ∈ modules) (htext : m.dir.text ≠ "") (hn : n ∈ modules) (hmdir : m.Contains dir) (hndir : n.Contains dir)
    (hlength : m.dir.components.length ≤ n.dir.components.length) : m.importPathOf dir = n.importPathOf dir := by
  have haround := hmdir.of_length_le hndir hlength
  rw [haround.importPathOf hndir, hagree m hm htext n hn haround]
  rfl

/-- If the module that is written longest is that of the empty path, so are all others. -/
theorem text_eq_empty_of_isLongest {n : ModuleDir} (h : IsLongest modules dir m) (hn : n ∈ modules)
    (hndir : n.Contains dir) (hm : m.dir.text = "") : n.dir.text = "" := by
  have hle := h.longest n hn hndir
  rw [hm] at hle
  exact String.utf8ByteSize_eq_zero_iff.mp (Nat.le_zero.mp hle)

/-- The module that is written longest gives a directory the path that any other one gives that contains it, if modules
agree on what lies in both. -/
theorem importPathOf_of_isLongest (hdirs : (modules.map (·.dir.components)).Nodup)
    (hagree : ∀ m ∈ modules, m.dir.text ≠ "" → ∀ n ∈ modules, m.Contains n.dir → m.importPathOf n.dir = n.path)
    {n : ModuleDir} (h : IsLongest modules dir m) (hn : n ∈ modules) (hndir : n.Contains dir)
    (hempty : n.dir.text = "" → m.dir.text = "") : m.importPathOf dir = n.importPathOf dir := by
  have hone : n.dir.text = "" → m.dir.text = "" → n = m := by
    intro hn' hm'
    rw [Path.text_eq_empty_iff] at hn' hm'
    exact List.inj_on_of_nodup_map hdirs hn h.mem (hn'.trans hm'.symm)
  rcases Nat.le_total m.dir.components.length n.dir.components.length with hlength | hlength
  · by_cases hm : m.dir.text = ""
    · rw [hone (text_eq_empty_of_isLongest h hn hndir hm) hm]
    · exact importPathOf_eq hagree h.mem hm hn h.contains hndir hlength
  · by_cases hn' : n.dir.text = ""
    · rw [hone hn' (hempty hn')]
    · exact (importPathOf_eq hagree hn hn' h.mem hndir h.contains hlength).symm

/-- How directories are written does not matter, if modules agree on what lies in both. -/
theorem importPathForDir_of_mapping (hdirs : (modules.map (·.dir.components)).Nodup)
    (hagree : ∀ m ∈ modules, m.dir.text ≠ "" → ∀ n ∈ modules, m.Contains n.dir → m.importPathOf n.dir = n.path)
    {others : List ModuleDir} (h : others.map mapping = modules.map mapping) (dir : Path) :
    (new roots others).importPathForDir dir = (new roots modules).importPathForDir dir := by
  have hmember {xs ys : List ModuleDir} (h : xs.map mapping = ys.map mapping) {x : ModuleDir} (hx : x ∈ xs) :
      ∃ y ∈ ys, x.mapping = y.mapping := by
    obtain ⟨y, hy, hxy⟩ := List.mem_map.mp (h ▸ List.mem_map_of_mem hx)
    exact ⟨y, hy, hxy.symm⟩
  have htext {x y : ModuleDir} (hsame : x.mapping = y.mapping) : x.dir.text = "" ↔ y.dir.text = "" := by
    rw [Path.text_eq_empty_iff, Path.text_eq_empty_iff, (Prod.mk.inj hsame).2]
  by_cases hinside : ∃ m ∈ modules, m.Contains dir
  · obtain ⟨m, hm, hcontains⟩ := hinside
    obtain ⟨m', hm', hsame⟩ := hmember h.symm hm
    obtain ⟨used, hused, hanswer⟩ := importPathForDir_of_contains roots hm hcontains
    obtain ⟨used', hused', hanswer'⟩ := importPathForDir_of_contains roots hm'
      ((contains_of_mapping hsame).mp hcontains)
    -- each of the two modules that are used, as it is written among the other ones
    obtain ⟨k, hk, hkused⟩ := hmember h hused'.mem
    obtain ⟨k', hk', hkused'⟩ := hmember h.symm hused.mem
    have hkdir := (contains_of_mapping hkused).mp hused'.contains
    have hkdir' := (contains_of_mapping hkused').mp hused.contains
    have hempty : k.dir.text = "" → used.dir.text = "" := by
      intro hnone
      exact (htext hkused').mpr (text_eq_empty_of_isLongest hused' hk' hkdir' ((htext hkused).mpr hnone))
    rw [hanswer, hanswer', importPathOf_of_mapping hkused, importPathOf_of_isLongest hdirs hagree hused hk hkdir hempty]
  · have houtside : ∀ m ∈ modules, ¬ m.Contains dir := fun m hm hcontains => hinside ⟨m, hm, hcontains⟩
    have houtside' : ∀ m ∈ others, ¬ m.Contains dir := by
      intro m' hm' hcontains
      obtain ⟨m, hm, hsame⟩ := hmember h hm'
      exact houtside m hm ((contains_of_mapping hsame).mp hcontains)
    rw [importPathForDir_of_outside houtside, importPathForDir_of_outside houtside']

/-! ## The innermost module -/

/-- For modules with different paths and directories: the innermost module around a directory gives it its import path, in
every order of the modules, exactly if each module that is written longest around the directory of a module gives this
directory the path of the module. How the directories of modules are written never matters exactly if each module gives
the directories of modules in its own the paths of these modules. How roots are written never matters at all. -/
theorem importPathForDir_innermost_iff (roots : List Path) (modules : List ModuleDir)
    (hpaths : (modules.map (·.path)).Nodup) (hdirs : (modules.map (·.dir.components)).Nodup) :
    ((∀ order, order.Perm modules → ∀ dir owner, Owns modules dir owner →
        (registered roots order).importPathForDir dir = some (owner.importPathOf dir)) ↔
      ∀ n ∈ modules, ∀ m, IsLongest modules n.dir m → m.importPathOf n.dir = n.path) ∧
    ((∀ others, others.map mapping = modules.map mapping → ∀ dir,
        (registered roots others).importPathForDir dir = (registered roots modules).importPathForDir dir) ↔
      ∀ m ∈ modules, m.dir.text ≠ "" → ∀ n ∈ modules, m.Contains n.dir → m.importPathOf n.dir = n.path) ∧
    ∀ others : List Path, others.map (·.components) = roots.map (·.components) → ∀ dir,
      (registered others modules).importPathForDir dir = (registered roots modules).importPathForDir dir := by
  have horder {order : List ModuleDir} (h : order.Perm modules) (roots : List Path) :
      registered roots order = new roots order := registered_eq ((h.map _).nodup_iff.mpr hpaths)
  have hothers {others : List ModuleDir} (h : others.map mapping = modules.map mapping) :
      registered roots others = new roots others := by
    have hsame : others.map (·.path) = modules.map (·.path) := by
      have hmap := congrArg (List.map Prod.fst) h
      rwa [List.map_map, List.map_map] at hmap
    exact registered_eq (hsame ▸ hpaths)
  refine ⟨⟨fun h n hn m hm => ?_, fun h order hperm dir owner howner => ?_⟩, ⟨fun h m hm htext n hn hcontains => ?_,
    fun h others hsame dir => ?_⟩, fun others hsame dir => ?_⟩
  · obtain ⟨order, hperm, hanswer⟩ := exists_order_of_isLongest roots hm
    have hown := h order hperm n.dir n (owns_self hn)
    rw [horder hperm, hanswer, importPathOf_self] at hown
    exact Option.some.inj hown
  · have hagree : ∀ n ∈ order, ∀ m, IsLongest order n.dir m → m.importPathOf n.dir = n.path := fun n hn m hm =>
      h n (hperm.mem_iff.mp hn) m ((isLongest_perm hperm).mp hm)
    rw [horder hperm]
    exact importPathForDir_of_owns hagree ⟨hperm.mem_iff.mpr howner.mem, howner.contains,
      fun other hother => howner.innermost other (hperm.mem_iff.mp hother)⟩
  · -- each of the two modules is used if only its directory is written long enough
    have hntext : n.dir.text ≠ "" := by
      rw [ne_eq, Path.text_eq_empty_iff] at htext ⊢
      intro hnone
      rw [Contains, hnone, List.prefix_nil] at hcontains
      exact htext hcontains
    obtain ⟨others, hsame, hanswer⟩ := exists_respelling roots hm htext
    obtain ⟨others', hsame', hanswer'⟩ := exists_respelling roots hn hntext
    have heq := (h others hsame n.dir).trans (h others' hsame' n.dir).symm
    rw [hothers hsame, hothers hsame', hanswer n.dir hcontains, hanswer' n.dir n.contains_self, importPathOf_self] at heq
    exact Option.some.inj heq
  · rw [hothers hsame, horder (List.Perm.refl _)]
    exact importPathForDir_of_mapping hdirs h hsame dir
  · rw [horder (List.Perm.refl _), horder (List.Perm.refl _), importPathForDir_new, importPathForDir_new,
      belowRoots_of_components hsame]

/-- A module in a directory that is written with a point, and one below it. -/
def pointedModules : List ModuleDir := [⟨"a", ⟨"/w/s"⟩⟩, ⟨"b", ⟨"/w/."⟩⟩]

/-- The outer one of two modules is used for the directory of the inner one if it is written as long and registered later,
and would not be if it were written without the point. -/
theorem importPathForDir_pointedModules :
    (pointedModules.map (·.path)).Nodup ∧ (pointedModules.map (·.dir.components)).Nodup ∧
      (registered [] pointedModules).importPathForDir ⟨"/w/s"⟩ = some "b/s" ∧
      (registered [] [⟨"a", ⟨"/w/s"⟩⟩, ⟨"b", ⟨"/w"⟩⟩]).importPathForDir ⟨"/w/s"⟩ = some "a" ∧
      ¬ ∀ order, order.Perm pointedModules → ∀ dir owner, Owns pointedModules dir owner →
        (registered [] order).importPathForDir dir = some (owner.importPathOf dir) := by
  have hpaths : (pointedModules.map (·.path)).Nodup := by decide +kernel
  have hdirs : (pointedModules.map (·.dir.components)).Nodup := by decide +kernel
  refine ⟨hpaths, hdirs, by decide +kernel, by decide +kernel, fun h => ?_⟩
  have hcontains : (Path.mk "/w/.").components <+: (Path.mk "/w/s").components := by decide +kernel
  have hlongest : IsLongest pointedModules ⟨"/w/s"⟩ ⟨"b", ⟨"/w/."⟩⟩ := by
    refine ⟨List.mem_of_getElem? (i := 1) rfl, hcontains, fun other hother _ => ?_⟩
    have hsizes : ∀ size ∈ pointedModules.map (·.dir.text.utf8ByteSize), size ≤ 4 := by decide +kernel
    exact hsizes _ (List.mem_map_of_mem hother)
  have hagree := (importPathForDir_innermost_iff [] pointedModules hpaths hdirs).1.mp h ⟨"a", ⟨"/w/s"⟩⟩
    (List.mem_of_getElem? (i := 0) rfl) _ hlongest
  exact absurd hagree (by decide +kernel)

end PackageDb

end LiteralFill
