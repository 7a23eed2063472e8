import LiteralFill.Fill.Resolve
import LiteralFill.Proofs.Packages.Places

/-!
Packages that are read from two trees, of which one holds another copy of a file. A package of another directory is
the same. Of the package in the directory of the file, the types are the same in all files but that one.
-/

namespace LiteralFill

namespace Package

/-! ## Names of a directory -/

variable {t t' : FileTree} {place d : Place} {dir : Path}

/-- The paths of the files of a package. -/
def sourcePaths (dir : Path) (names : List String) : List Path :=
  (sortNames (names.filter isSourceName)).map dir.join

/-- The file at a path. -/
def fileAt (t : FileTree) (p : Path) : Option PackageFile :=
  (t.readText p).map fun text => ⟨some p, SourceFile.parse text.toList⟩

/-- The files of the package in a directory, in order of their names. -/
def filesIn (t : FileTree) (dir : Path) : List PackageFile :=
  ((t.list dir).map fun names => (sourcePaths dir names).filterMap (fileAt t)).getD []

theorem read_eq (t : FileTree) (path : String) (dir : Path) :
    read t path dir =
      if (filesIn t dir).isEmpty then none else some (ofFiles path (some dir) (filesIn t dir)) := by
  unfold read filesIn
  cases t.list dir <;> rfl

theorem list_eq_some {names : List String} (h : t.list dir = some names) :
    ∃ d, t.locate dir = some d ∧ t.isDirectoryAt d = true ∧
      names = t.entries.filterMap fun (inner, _) => FileTree.childName d inner := by
  unfold FileTree.list at h
  split at h
  · next d hd =>
    split at h
    · next hdir =>
      cases h
      exact ⟨d, hd, hdir, rfl⟩
    · cases h
  · cases h

theorem childName_eq_some {inner : Place} {name : String} (h : FileTree.childName d inner = some name) :
    inner = d ++ [name] := by
  unfold FileTree.childName at h
  cases hlast : inner.getLast? with
  | none =>
    rw [hlast] at h
    cases h
  | some last =>
    obtain ⟨outer, rfl⟩ := List.getLast?_eq_some_iff.mp hlast
    simp only [hlast, List.dropLast_concat, beq_iff_eq] at h
    split at h
    · next houter =>
      cases h
      rw [houter]
    · cases h

/-- The files of a directory are the entries that stand in it. -/
theorem locate_sourcePaths (hwell : t.WellFormed) {names : List String} (h : t.list dir = some names) {p : Path}
    (hp : p ∈ sourcePaths dir names) :
    ∃ d name, t.locate dir = some d ∧ p = dir.join name ∧ t.locate p = some (d ++ [name]) := by
  obtain ⟨d, hd, hdir, rfl⟩ := list_eq_some h
  obtain ⟨name, hname, rfl⟩ := List.mem_map.mp hp
  have hname := List.mem_of_mem_filter (List.mem_mergeSort.mp hname)
  obtain ⟨⟨inner, e⟩, hentry, hchild⟩ := List.mem_filterMap.mp hname
  have hinner := childName_eq_some hchild
  subst hinner
  refine ⟨d, name, hd, rfl, FileTree.locate_join_name (hwell.names _ hentry name (by simp)) hd hdir ?_⟩
  unfold FileTree.entryAt
  rw [if_neg (by simp)]
  exact List.lookup_isSome_iff.mpr ⟨_, hentry, by simp⟩

/-! ## Two trees -/

section

variable (hsame : FileTree.SameBut place t t')
include hsame

theorem fileAt_of_ne {p : Path} (hp : t.locate p ≠ some place) : fileAt t' p = fileAt t p := by
  unfold fileAt
  rw [hsame.readText hp]

variable (hwell : t.WellFormed)
include hwell

/-- The files of another directory do not depend on the copy. -/
theorem filesIn_elsewhere (hd : t.locate dir ≠ some place.dropLast) : filesIn t' dir = filesIn t dir := by
  unfold filesIn
  rw [hsame.list]
  cases hlist : t.list dir with
  | none => rfl
  | some names =>
    refine List.filterMap_congr fun p hp => fileAt_of_ne hsame fun hplace => ?_
    obtain ⟨d, name, hdir, -, hat⟩ := locate_sourcePaths hwell hlist hp
    rw [hat, Option.some.injEq] at hplace
    rw [hdir, ← hplace, List.dropLast_concat] at hd
    exact hd rfl

/-- The files beside a file do not depend on the copy. -/
theorem filesIn_beside {path own : Path} (hpath : t.locate path = some place) (hown : path.parent = some own) :
    (filesIn t' own).filter (fun f => !isSkipped (some path) f) =
      (filesIn t own).filter fun f => !isSkipped (some path) f := by
  unfold filesIn
  rw [hsame.list]
  cases hlist : t.list own with
  | none => rfl
  | some names =>
    rw [Option.map_some, Option.map_some, Option.getD_some, Option.getD_some, List.filter_filterMap,
      List.filter_filterMap]
    refine List.filterMap_congr fun p hp => ?_
    by_cases hplace : t.locate p = some place
    · obtain ⟨d, name, hdir, rfl, hat⟩ := locate_sourcePaths hwell hlist hp
      rw [hat, Option.some.injEq] at hplace
      have hskip : (own.join name == path) = true :=
        Path.beq_iff.mpr (hwell.components_join hpath hsame.isDirectoryAt_place hown hdir hplace)
      have hnone (t : FileTree) : (fileAt t (own.join name)).filter (fun f => !isSkipped (some path) f) = none := by
        unfold fileAt
        cases t.readText (own.join name) with
        | none => rfl
        | some text => simp [Option.filter, isSkipped, hskip]
      rw [hnone, hnone]
    · rw [fileAt_of_ne hsame hplace]

end

end Package

/-! ## Declarations -/

/-- The first file that declares a type, with the declaration. -/
def declaringFile (name : String) (files : List PackageFile) : Option (PackageFile × TypeDecl) :=
  files.findSome? fun f => (f.source.packageType name).map (f, ·)

/-- The declaration of a type in a file of a package. -/
def Package.site (p : Package) (e : PackageFile × TypeDecl) : Site :=
  ⟨e.1.source, .member p.path (p.dir.map (·.text)) (e.1.path.map (·.text)), some p, e.2, p.path, p.name, false⟩

/-- The last files of a package are searched by their numbers. -/
theorem findSome?_zipIdx (p : Package) (name : String) (skip : Option Path) (files : List PackageFile) (k : Nat)
    (h : ∀ i, p.files[k + i]? = files[i]?) :
    (((files.zipIdx k).findSome? fun (f, i) =>
      if Package.isSkipped skip f then none else (f.source.packageType name).map fun d => (i, d)).bind
        fun (i, d) => (p.files[i]?).map fun f => p.site (f, d)) =
      (declaringFile name (files.filter fun f => !Package.isSkipped skip f)).map p.site := by
  induction files generalizing k with
  | nil => rfl
  | cons f rest ih =>
    have hrest := ih (k + 1) fun i => by
      have := h (i + 1)
      rwa [List.getElem?_cons_succ, ← Nat.add_assoc, Nat.add_right_comm] at this
    have hfirst : p.files[k]? = some f := by simpa using h 0
    rw [List.zipIdx_cons, List.findSome?_cons]
    cases hskip : Package.isSkipped skip f with
    | true => simpa [hskip] using hrest
    | false =>
      cases htype : f.source.packageType name with
      | none => simpa [hskip, htype, declaringFile] using hrest
      | some d => simp [hskip, htype, declaringFile, hfirst]

/-- A type of a package is declared in a file of it that is not skipped. -/
theorem siteIn_eq (p : Package) (name : String) (skip : Option Path) :
    siteIn p name skip = (declaringFile name (p.files.filter fun f => !Package.isSkipped skip f)).map p.site := by
  rw [← findSome?_zipIdx p name skip p.files 0 fun i => by rw [Nat.zero_add]]
  unfold siteIn Package.findType
  split
  · next i d hfound => rw [hfound]; rfl
  · next hnone => rw [hnone]; rfl

/-- The declaration of a type in the package of a directory. -/
theorem Package.read_siteIn (t : FileTree) (path : String) (dir : Path) (name : String) (skip : Option Path) :
    (read t path dir).bind (siteIn · name skip) =
      (declaringFile name ((filesIn t dir).filter fun f => !isSkipped skip f)).map
        (ofFiles path (some dir) (filesIn t dir)).site := by
  rw [read_eq]
  split
  · next hempty => rw [List.isEmpty_iff.mp hempty]; rfl
  · exact siteIn_eq ..

theorem Package.read_of_declaringFile {t : FileTree} {dir : Path} {name : String} {skip : Option Path}
    {e : PackageFile × TypeDecl}
    (h : declaringFile name ((filesIn t dir).filter fun f => !isSkipped skip f) = some e) (path : String) :
    read t path dir = some (ofFiles path (some dir) (filesIn t dir)) := by
  rw [read_eq, if_neg]
  intro hempty
  rw [List.isEmpty_iff.mp hempty] at h
  cases h

/-- The value of a constant of the package in a directory. -/
def FileTree.constant (t : FileTree) (dir : Path) (name : String) : Option Nat :=
  (Package.read t "" dir).bind (·.findConst name)

theorem Package.read_findConst (t : FileTree) (path : String) (dir : Path) (name : String) :
    (read t path dir).bind (·.findConst name) = t.constant dir name := by
  unfold FileTree.constant
  rw [read_eq, read_eq]
  split <;> rfl

theorem FileTree.constant_eq_none {t : FileTree} {dir : Path} (h : ∀ f ∈ Package.filesIn t dir, f.source.consts = [])
    (name : String) : t.constant dir name = none := by
  have hfiles : (Package.filesIn t dir).findSome? (fun f => f.source.packageConst name) = none :=
    List.findSome?_eq_none_iff.mpr fun f hf => by simp [SourceFile.packageConst, h f hf]
  unfold FileTree.constant
  rw [Package.read_eq]
  split
  · rfl
  · exact hfiles

/-- Packages, one for each of some settings, that declare the same types outside a file and have the same
constants. -/
structure PackagesTogether {ι : Type} (skip : Option Path) (p : ι → Option Package) : Prop where
  site (name : String) : (∀ i, (p i).bind (siteIn · name skip) = none) ∨ ∃ (site : Site) (package : ι → String),
    ∀ i, (p i).bind (siteIn · name skip) = some { site with package := p i, name := package i }
  constant (name : String) : ∃ n, ∀ i, (p i).bind (·.findConst name) = n

theorem PackagesTogether.same {ι : Type} (skip : Option Path) (p : Option Package) :
    PackagesTogether skip fun _ : ι => p where
  site name := by
    cases hsite : p.bind (siteIn · name skip) with
    | none => exact .inl fun _ => rfl
    | some site =>
      obtain ⟨q, rfl, hq⟩ := Option.bind_eq_some_iff.mp hsite
      rw [siteIn_eq] at hq
      obtain ⟨e, -, rfl⟩ := Option.map_eq_some_iff.mp hq
      exact .inr ⟨q.site e, fun _ => q.name, fun _ => rfl⟩
  constant name := ⟨_, fun _ => rfl⟩

/-- The packages in the directory of a file, read from two trees that differ in the file. -/
theorem FileTree.SameBut.packagesTogether {t t' : FileTree} {place : Place} {path own : Path}
    (hsame : SameBut place t t') (hwell : t.WellFormed) (hpath : t.locate path = some place)
    (hown : path.parent = some own) (hconstant : ∀ name, t'.constant own name = t.constant own name)
    (importPath : String) :
    PackagesTogether (some path) fun i : Bool => Package.read (cond i t' t) importPath own where
  constant name := by
    refine ⟨t.constant own name, fun i => ?_⟩
    rw [Package.read_findConst]
    cases i with
    | false => rfl
    | true => exact hconstant name
  site name := by
    have hkept (i : Bool) : (Package.filesIn (cond i t' t) own).filter (fun f => !Package.isSkipped (some path) f) =
        (Package.filesIn t own).filter fun f => !Package.isSkipped (some path) f := by
      cases i with
      | false => rfl
      | true => exact Package.filesIn_beside hsame hwell hpath hown
    cases hdeclared : declaringFile name
        ((Package.filesIn t own).filter fun f => !Package.isSkipped (some path) f) with
    | none =>
      refine .inl fun i => ?_
      rw [Package.read_siteIn, hkept, hdeclared]
      rfl
    | some e =>
      refine .inr ⟨(Package.ofFiles importPath (some own) []).site e,
        fun i => (Package.ofFiles importPath (some own) (Package.filesIn (cond i t' t) own)).name, fun i => ?_⟩
      rw [Package.read_siteIn, Package.read_of_declaringFile ((congrArg _ (hkept i)).trans hdeclared), hkept,
        hdeclared]
      rfl

end LiteralFill
