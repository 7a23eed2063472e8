import LiteralFill.Proofs.Packages.Copies

/-!
Directories that are written in several ways. Paths with the same components lead to the same directory and hold the
same files, so a package is read alike from all of them; only the paths of its files are written as that of the
directory is.
-/

namespace LiteralFill

/-! ## Places -/

/-- The components tell whether a path is written at all. -/
theorem Path.text_eq_empty_iff {p : Path} : p.text = "" ↔ p.components = [] := by
  constructor
  · intro h
    rw [show p = ⟨""⟩ from congrArg Path.mk h]
    rfl
  · intro h
    rw [components_eq, List.append_eq_nil_iff, List.map_eq_nil_iff] at h
    obtain ⟨hlead, hnames⟩ := h
    have hrelative : p.isAbsolute = false := by
      cases habsolute : p.isAbsolute with
      | false => rfl
      | true => simp [lead, habsolute] at hlead
    have hhead : p.segments.head? ≠ some "." := by
      intro hpoint
      simp [lead, hrelative, hpoint] at hlead
    have hfillers : ∀ s ∈ p.segments, isFiller s = true := by simpa [names, List.filter_eq_nil_iff] using hnames
    have htext := p.intercalate_segments
    cases hsegments : p.segments with
    | nil => exact absurd hsegments p.segments_ne_nil
    | cons first rest =>
      rw [hsegments] at htext hhead hfillers
      have hfirst : first = "" := by
        have := hfillers first List.mem_cons_self
        simp_all [isFiller]
      cases rest with
      | nil => rw [← htext, hfirst, String.intercalate_singleton]
      | cons s rest =>
        have habsolute : p.isAbsolute = true := isAbsolute_iff.mpr ⟨s, rest, by rw [hsegments, hfirst]⟩
        rw [hrelative] at habsolute
        cases habsolute

namespace FileTree

variable {t : FileTree} {d : Place}

/-- A path to a directory goes through directories. -/
theorem isDirectoryAt_of_follow (hd : t.isDirectoryAt d = true) {place : Place} {pieces : List String}
    (h : t.follow place pieces = some d) : t.isDirectoryAt place = true := by
  cases pieces with
  | nil =>
    obtain rfl : place = d := Option.some.inj h
    exact hd
  | cons s rest =>
    rw [follow] at h
    split at h
    · cases h
    · next hplace => simpa using hplace

/-- The pieces that name nothing may stand anywhere on the way to a directory. -/
theorem follow_of_filter (hd : t.isDirectoryAt d = true) {place : Place} {pieces : List String}
    (h : t.follow place (pieces.filter fun s => !Path.isFiller s) = some d) : t.follow place pieces = some d := by
  induction pieces generalizing place with
  | nil => exact h
  | cons s rest ih =>
    have hplace := isDirectoryAt_of_follow hd h
    cases hfiller : Path.isFiller s with
    | true =>
      rw [List.filter_cons_of_neg (by simp [hfiller])] at h
      rw [follow, hplace, hfiller]
      exact ih h
    | false =>
      rw [List.filter_cons_of_pos (by simp [hfiller]), follow, hplace, hfiller] at h
      rw [follow, hplace, hfiller]
      simp only [Bool.not_true, Bool.false_eq_true, ↓reduceIte] at h ⊢
      split at h
      · next hup => rw [if_pos hup]; exact ih h
      · next hup =>
        rw [if_neg hup]
        split at h
        · next hsome => rw [if_pos hsome]; exact ih h
        · cases h

/-- Paths with the same components lead to the same directory. -/
theorem locate_of_components {p q : Path} (h : p.components = q.components) (hd : t.isDirectoryAt d = true)
    (hp : t.locate p = some d) : t.locate q = some d := by
  obtain ⟨htext, hfollow⟩ := (locate_eq_some t).mp hp
  obtain ⟨habsolute, hnames⟩ := Path.eq_of_components h
  refine (locate_eq_some t).mpr ⟨fun hempty => htext ?_, follow_of_filter hd ?_⟩
  · rw [Path.text_eq_empty_iff, h, ← Path.text_eq_empty_iff, hempty]
  · have hfiltered := follow_filter t hfollow
    unfold start at hfiltered ⊢
    unfold Path.names at hnames
    rwa [← habsolute, ← hnames]

theorem list_of_locate {p : Path} (hp : t.locate p = some d) (hd : t.isDirectoryAt d = true) :
    t.list p = some (t.entries.filterMap fun (inner, _) => childName d inner) := by
  unfold list
  simp [hp, hd]

theorem locate_of_list {p : Path} {names : List String} (h : t.list p = some names) :
    ∃ d, t.locate p = some d ∧ t.isDirectoryAt d = true := by
  unfold list at h
  split at h
  · next d hp =>
    split at h
    · next hd => exact ⟨d, hp, hd⟩
    · cases h
  · cases h

variable {p q : Path} (h : p.components = q.components)
include h

/-- Paths with the same components have the same names inside. -/
theorem list_of_components : t.list p = t.list q := by
  have hsome {p q : Path} (h : p.components = q.components) {names : List String} (hp : t.list p = some names) :
      t.list q = some names := by
    obtain ⟨d, hlocate, hd⟩ := locate_of_list hp
    rw [list_of_locate (locate_of_components h hd hlocate) hd, ← list_of_locate hlocate hd, hp]
  exact Option.ext fun names => ⟨hsome h, hsome h.symm⟩

/-- What is joined to paths of a directory with the same components has the same components, and leads to the same
place. -/
theorem join_of_components (hp : t.locate p = some d) (hd : t.isDirectoryAt d = true) (inner : String) :
    (p.join inner).components = (q.join inner).components ∧ t.locate (p.join inner) = t.locate (q.join inner) := by
  have hq := locate_of_components h hd hp
  cases hinner : (Path.mk inner).isAbsolute with
  | true =>
    have hjoin (p : Path) : p.join inner = ⟨inner⟩ := by simp [Path.join, hinner]
    rw [hjoin, hjoin]
    exact ⟨rfl, rfl⟩
  | false =>
    rw [Path.components_join hinner ((locate_eq_some t).mp hp).1, Path.components_join hinner ((locate_eq_some t).mp hq).1,
      locate_join hinner hp, locate_join hinner hq, h]
    exact ⟨rfl, rfl⟩

end FileTree

/-! ## Packages -/

/-- What a file is, however its path is written. -/
def PackageFile.content (f : PackageFile) : Option (List Component) × SourceFile := (f.path.map (·.components), f.source)

/-- What a package is, however the paths of its directory and files are written. -/
def Package.content (p : Package) :
    String × String × Option (List Component) × List (Option (List Component) × SourceFile) :=
  (p.path, p.name, p.dir.map (·.components), p.files.map (·.content))

/-- The same answer to the question for a package: none, or the same package up to how paths are written. -/
def SamePackage (x y : Option Package) : Prop := x.map (·.content) = y.map (·.content)

namespace Package

variable {t : FileTree} {dir dir' : Path} (h : dir.components = dir'.components)

/-- The content of the package of some files is that of their contents. -/
theorem content_ofFiles (path : String) (dir : Option Path) (files : List PackageFile) :
    (ofFiles path dir files).content =
      (path, ((files.map (·.content)).findSome? (·.2.package)).getD (defaultPackageName path), dir.map (·.components),
        files.map (·.content)) := by
  rw [List.findSome?_map]
  rfl

include h

theorem filesIn_of_components :
    (filesIn t dir).map (·.content) = (filesIn t dir').map (·.content) := by
  unfold filesIn
  rw [← FileTree.list_of_components h]
  cases hlist : t.list dir with
  | none => rfl
  | some names =>
    obtain ⟨d, hlocate, hd⟩ := FileTree.locate_of_list hlist
    have hfile (name : String) :
        (fileAt t (dir.join name)).map (·.content) = (fileAt t (dir'.join name)).map (·.content) := by
      obtain ⟨hcomponents, hplace⟩ := FileTree.join_of_components h hlocate hd name
      have hread : t.readText (dir.join name) = t.readText (dir'.join name) := by
        unfold FileTree.readText FileTree.readBytes FileTree.entry
        rw [hplace]
      unfold fileAt
      rw [hread, Option.map_map, Option.map_map]
      refine Option.map_congr fun text _ => ?_
      simp [PackageFile.content, hcomponents]
    simp only [Option.map_some, Option.getD_some, sourcePaths, List.filterMap_map, List.map_filterMap]
    exact congrArg (fun f => List.filterMap f _) (funext fun name => hfile name)

/-- A package is read alike from a directory, however its path is written. -/
theorem read_of_components (path : String) : SamePackage (read t path dir) (read t path dir') := by
  have hfiles := filesIn_of_components (t := t) h
  have hempty : (filesIn t dir).isEmpty = (filesIn t dir').isEmpty := by
    have hmap := congrArg List.isEmpty hfiles
    rwa [List.isEmpty_map, List.isEmpty_map] at hmap
  unfold SamePackage
  rw [read_eq, read_eq, hempty]
  split
  · rfl
  · simp only [Option.map_some, content_ofFiles, hfiles, h]

end Package

end LiteralFill
