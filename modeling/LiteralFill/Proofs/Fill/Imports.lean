import LiteralFill.Proofs.Fill.Edits
import LiteralFill.Proofs.Fill.Visibility
import LiteralFill.Proofs.Fill.Wording

/-!
Zero values and imports. The zero values of a request are those of the fields that it sets, and the imports are the
paths of the names asked for on the way. Each name that stands in a zero value can be referred to in the file once
the imports are there. An import may be asked for and not be used, if its only names are dropped, and one local name
may stand for two packages, because the name of a package stands before a type whatever else has this name.
-/

namespace LiteralFill

/-! ## Zero values -/

/-- A path of a name of another package. -/
def PathAmong (package : String) (names : List TypeName) (p : String) : Prop :=
  ∃ n ∈ names, n.isForeignTo package = true ∧ n.path = p

theorem pathAmong_flatMap {α : Type} {package : String} {f : α → List TypeName} {l : List α} {p : String} :
    PathAmong package (l.flatMap f) p ↔ ∃ a ∈ l, PathAmong package (f a) p := by
  simp only [PathAmong, List.mem_flatMap]
  constructor
  · rintro ⟨n, ⟨a, ha, hn⟩, hp⟩
    exact ⟨a, ha, n, hn, hp⟩
  · rintro ⟨a, ha, n, hn, hp⟩
    exact ⟨n, ⟨a, ha, hn⟩, hp⟩

namespace Synthesizer

/-- The zero value of a type in pieces. -/
def spelled (z : Synthesizer) (t : Ty) : Worded := z.worded z.recurse [] none t

/-- The names that the zero value of a type asks for and does not hold. -/
def unused (z : Synthesizer) (t : Ty) : List TypeName := z.dropped z.recurse [] none t

theorem write_spelled (z : Synthesizer) (t : Ty) : (z.spelled t).write z.qualifier = (z.synthesize t).1 :=
  z.write_worded z.recurse [] t none

/-- The paths of a zero value are those of the foreign names in it, and of those that are dropped. -/
theorem mem_synthesize {z : Synthesizer} {t : Ty} {p : String} :
    p ∈ (z.synthesize t).2 ↔
      PathAmong z.packagePath (z.spelled t).names p ∨ PathAmong z.packagePath (z.unused t) p := by
  have hnames := fun m => z.mem_names_zero z.recurse [] m t none
  simp only [outerText, outerNames, Option.map_none, List.not_mem_nil, or_false] at hnames
  show p ∈ PathSet.ofList _ ↔ _
  simp only [PathSet.mem_ofList, List.mem_map, List.mem_filter, hnames, spelled, unused, PathAmong, ← exists_or,
    and_assoc, or_and_right]

end Synthesizer

/-! ## Merged literals -/

/-- The zero value of an entry that has one. -/
def MergedEntry.zero? (e : MergedEntry) : Option ZeroExpr :=
  match e.value with
  | .zero expr => some expr
  | .source _ => none

/-- The types of the fields that get a zero value. -/
def zeroedTypes (samePackage : Bool) (supplied : List (Nat × Element)) (index : Nat) (fields : List (Field Ty)) :
    List Ty :=
  ((unsetFields supplied index fields).filter fun f => f.exported || samePackage).map (·.type)

theorem mergeFields_zeros {file : SourceFile} {z : Synthesizer} {samePackage : Bool} {supplied : List (Nat × Element)}
    {index : Nat} {fields : List (Field Ty)} {s s' : Session} {entries : List MergedEntry} {imports : PathSet}
    (h : mergeFields file z samePackage supplied index fields s = (some (entries, imports), s')) :
    entries.filterMap (·.zero?) =
        (zeroedTypes samePackage supplied index fields).map (fun t => (z.synthesize t).1) ∧
      ∀ p, p ∈ imports ↔ ∃ t ∈ zeroedTypes samePackage supplied index fields, p ∈ (z.synthesize t).2 := by
  unfold zeroedTypes
  induction fields generalizing index s entries imports with
  | nil =>
    cases h
    simp [unsetFields]
  | cons f rest ih =>
    rw [mergeFields] at h
    unfold unsetFields
    split at h
    · next e hlookup =>
      rw [hlookup, Option.isSome_some, if_pos rfl]
      split at h
      · next hmore =>
        cases h
        have hentries := ih hmore
        exact hentries
      · cases h
    · next hlookup =>
      rw [hlookup, Option.isSome_none, if_neg (by simp), List.filter_cons]
      split at h
      · next hshown =>
        rw [if_pos hshown, List.map_cons]
        split at h
        · cases h
        · dsimp only at h
          split at h
          · next hmore =>
            cases h
            obtain ⟨hzeros, himports⟩ := ih hmore
            refine ⟨?_, fun p => ?_⟩
            · rw [List.map_cons, ← hzeros]
              rfl
            · rw [PathSet.mem_union, himports]
              simp
          · cases h
      · next hshown =>
        rw [if_neg hshown]
        exact ih h

/-- The types of the zero values of a literal whose type is resolved. -/
def resolvedZeros (r : FillRequest) (options : FillOptions) (literal : CompositeLiteral) (resolved : ResolvedStruct) :
    List Ty :=
  match matchElements resolved.fields literal (r.file.slice literal.typeSpan) with
  | .ok supplied =>
    zeroedTypes (resolved.packagePath == (options.synthesizer r).packagePath) supplied 0 resolved.fields
  | .error _ => []

theorem merge_zeros {r : FillRequest} {options : FillOptions} {literal : CompositeLiteral} {resolved : ResolvedStruct}
    {s s' : Session} {merged : Merged}
    (h : merge r.file literal resolved (options.synthesizer r) s = (.ok (some merged), s')) :
    merged.entries.filterMap (·.zero?) =
        (resolvedZeros r options literal resolved).map (fun t => ((options.synthesizer r).synthesize t).1) ∧
      ∀ p, p ∈ merged.imports ↔
        ∃ t ∈ resolvedZeros r options literal resolved, p ∈ ((options.synthesizer r).synthesize t).2 := by
  unfold merge at h
  unfold resolvedZeros
  split at h
  · cases h
  · next hsupplied =>
    rw [hsupplied]
    dsimp only at h
    split at h
    · next hmerge =>
      cases h
      exact mergeFields_zeros hmerge
    · cases h

/-! ## Requests -/

section

variable (resolve : StructResolver) (r : FillRequest) (options : FillOptions)

/-- The types of the zero values of a literal. The cancel flag was read before. -/
def literalZeros (literal : CompositeLiteral) (s : Session) : List Ty :=
  match (resolve ⟨r.file, r.path, r.packagePath, literal.lbrace⟩ literal.type s.poll.2).1 with
  | .ok resolved => resolvedZeros r options literal resolved
  | .error _ => []

/-- The types of the zero values of literals that are filled one after another. -/
def literalsZeros : List CompositeLiteral → Session → List Ty
  | [], _ => []
  | literal :: rest, s =>
    literalZeros resolve r options literal s ++ literalsZeros rest (fillLiteral resolve r options literal s).2

/-- The types of the zero values of a request. -/
def fillZeros (s : Session) : List Ty :=
  match locate r.file r.target with
  | .ok literals => literalsZeros resolve r options literals s
  | .error _ => []

end

variable {resolve : StructResolver} {r : FillRequest} {options : FillOptions} {s s' : Session}

/-- A literal that is left alone has no zero values. -/
theorem fillLiteral_leftAlone {literal : CompositeLiteral}
    (h : fillLiteral resolve r options literal s = (.leftAlone, s')) : literalZeros resolve r options literal s = [] := by
  unfold fillLiteral at h
  unfold literalZeros
  split at h
  · cases h
  · next hpoll =>
    rw [hpoll]
    split at h
    · next hresolved => rw [hresolved]
    · unfold fillResolved at h
      split at h <;> cases h

/-- The edit that a merged literal gives. -/
def mergedEdit (r : FillRequest) (options : FillOptions) (l : CompositeLiteral × Merged) : TextEdit :=
  ⟨l.1.braceSpan, render l.2 (String.ofList (indentAt r.file.text l.1.lbrace)) options.layout⟩

theorem fillLiteral_zeros {literal : CompositeLiteral} {edit : TextEdit} {paths : PathSet}
    (h : fillLiteral resolve r options literal s = (.edited edit paths, s')) :
    ∃ merged : Merged, edit = mergedEdit r options (literal, merged) ∧ paths = merged.imports ∧
      merged.entries.filterMap (·.zero?) = (literalZeros resolve r options literal s).map
        (fun t => ((options.synthesizer r).synthesize t).1) ∧
      ∀ p, p ∈ paths ↔
        ∃ t ∈ literalZeros resolve r options literal s, p ∈ ((options.synthesizer r).synthesize t).2 := by
  unfold fillLiteral at h
  unfold literalZeros
  split at h
  · cases h
  · next hpoll =>
    rw [hpoll]
    split at h
    · next e _ _ =>
      cases e <;> unfold onResolveError at h <;> dsimp only at h <;> try split at h
      all_goals cases h
    · next resolved _ hresolved =>
      rw [hresolved]
      unfold fillResolved at h
      split at h
      · cases h
      · cases h
      · next merged _ hmerged =>
        cases h
        exact ⟨merged, rfl, rfl, merge_zeros hmerged⟩

/-- The edits of literals are those of merged literals that hold the zero values, and the paths are those of the
zero values. -/
theorem fillLiterals_zeros {literals : List CompositeLiteral} {edits : List TextEdit} {paths : PathSet}
    (h : fillLiterals resolve r options literals s = (.edited edits paths, s')) :
    ∃ merged : List (CompositeLiteral × Merged), edits = merged.map (mergedEdit r options) ∧
      merged.flatMap (·.2.entries.filterMap (·.zero?)) = (literalsZeros resolve r options literals s).map
        (fun t => ((options.synthesizer r).synthesize t).1) ∧
      ∀ p, p ∈ paths ↔
        ∃ t ∈ literalsZeros resolve r options literals s, p ∈ ((options.synthesizer r).synthesize t).2 := by
  induction literals generalizing s edits paths with
  | nil =>
    cases h
    exact ⟨[], rfl, rfl, by simp [literalsZeros]⟩
  | cons literal rest ih =>
    rw [fillLiterals] at h
    rw [literalsZeros]
    split at h
    · cases h
    · next s₁ hleft =>
      rw [fillLiteral_leftAlone hleft, hleft, List.nil_append]
      exact ih h
    · next edit found s₁ hedited =>
      rw [hedited]
      split at h
      · next hrest =>
        cases h
        obtain ⟨m, rfl, rfl, hzeros, hpaths⟩ := fillLiteral_zeros hedited
        obtain ⟨merged, rfl, hmore, himports⟩ := ih hrest
        refine ⟨(literal, m) :: merged, rfl, ?_, fun p => ?_⟩
        · rw [List.flatMap_cons, hzeros, hmore, List.map_append]
        · rw [PathSet.mem_union, hpaths, himports]
          simp only [List.mem_append, or_and_right, exists_or]
      · cases h

/-- The file cannot refer to a package yet: it does not import the path, or only for its effects. -/
def SourceFile.Lacks (f : SourceFile) (path : String) : Prop :=
  ¬ ∃ i ∈ f.imports, i.path = path ∧ i.alias? ≠ some "_"

/-- The edits of an output are those of merged literals whose zero values are written like this. -/
def FillOutput.Spells (output : FillOutput) (r : FillRequest) (options : FillOptions) (values : List Worded) : Prop :=
  ∃ merged : List (CompositeLiteral × Merged), output.edits = sortEdits (merged.map (mergedEdit r options)) ∧
    merged.flatMap (·.2.entries.filterMap (·.zero?)) = values.map (·.write (r.file.qualifier r.packagePath))

section

variable (resolve r options s)

/-- The zero values of a request in pieces. -/
def fillValues : List Worded := (fillZeros resolve r options s).map (options.synthesizer r).spelled

/-- The names that stand in the zero values of a request. -/
def fillNames : List TypeName := (fillValues resolve r options s).flatMap (·.names)

/-- The names that a request asks for and that do not stand in a zero value for it. -/
def fillUnused : List TypeName := (fillZeros resolve r options s).flatMap (options.synthesizer r).unused

end

variable {output : FillOutput}

/-- A request that succeeds writes its zero values, and asks for the paths of their names that the file lacks. -/
theorem fill_spells (h : fill resolve r options s = (.filled output, s')) :
    output.Spells r options (fillValues resolve r options s) ∧
    ∀ p, p ∈ output.imports ↔ (PathAmong r.packagePath (fillNames resolve r options s) p ∨
        PathAmong r.packagePath (fillUnused resolve r options s) p) ∧ r.file.Lacks p := by
  obtain ⟨literals, edits, paths, s₁, hlocate, hliterals, -, rfl, rfl⟩ := fill_eq_filled h
  obtain ⟨merged, rfl, hzeros, hpaths⟩ := fillLiterals_zeros hliterals
  have hfill : fillZeros resolve r options s = literalsZeros resolve r options literals s := by
    rw [fillZeros, hlocate]
  have hvalues : PathAmong r.packagePath (fillNames resolve r options s) = fun p =>
      ∃ t ∈ fillZeros resolve r options s, PathAmong r.packagePath ((options.synthesizer r).spelled t).names p := by
    funext p
    rw [fillNames, fillValues, List.flatMap_map, pathAmong_flatMap]
  refine ⟨⟨merged, rfl, ?_⟩, fun p => ?_⟩
  · rw [hzeros, fillValues, hfill, List.map_map]
    refine List.map_congr_left fun t _ => ?_
    exact ((options.synthesizer r).write_spelled t).symm
  · have hother : PathAmong r.packagePath (fillNames resolve r options s) p ∨
        PathAmong r.packagePath (fillUnused resolve r options s) p → p ≠ r.packagePath := by
      rintro (⟨n, -, hforeign, rfl⟩ | ⟨n, -, hforeign, rfl⟩) <;>
        simp only [TypeName.isForeignTo, Bool.and_eq_true, bne_iff_ne] at hforeign <;> exact hforeign.2
    have hwanted : p ∈ paths ↔ PathAmong r.packagePath (fillNames resolve r options s) p ∨
        PathAmong r.packagePath (fillUnused resolve r options s) p := by
      rw [hpaths, hvalues, fillUnused, pathAmong_flatMap, hfill, ← exists_or]
      simp only [Synthesizer.mem_synthesize, and_or_left]
      rfl
    show p ∈ r.file.missingImports r.packagePath paths ↔ _
    rw [SourceFile.mem_missingImports, hwanted]
    exact ⟨fun ⟨hp, _, hlacks⟩ => ⟨hp, hlacks⟩, fun ⟨hp, hlacks⟩ => ⟨hp, hother hp, hlacks⟩⟩

/-! ## Names in a file -/

namespace SourceFile

/-- The file imports the names of a package without a prefix. -/
def DotImports (f : SourceFile) (path : String) : Prop := ∃ i ∈ f.imports, i.path = path ∧ i.isDot = true

/-- The file imports a package under this name. -/
def Aliases (f : SourceFile) (name path : String) : Prop :=
  ∃ i ∈ f.imports, i.path = path ∧ i.alias? = some name ∧ name ≠ "_"

/-- The file imports a package under the name that it has. -/
def ImportsPlainly (f : SourceFile) (path : String) : Prop := ∃ i ∈ f.imports, i.path = path ∧ i.alias? = none

/-- A type's name is written with the name of its package, which the file imports without an alias or is to import. -/
def NamesPackage (f : SourceFile) (imports : PathSet) (name : String) (n : TypeName) : Prop :=
  name = n.package ∧ (f.ImportsPlainly n.path ∨ n.path ∈ imports)

/-- A file of a package that also imports these paths can refer to a type's name as it is written there. -/
structure RefersTo (f : SourceFile) (package : String) (imports : PathSet) (n : TypeName) : Prop where
  near : n.isForeignTo package = false → f.qualifier package n = none
  dotted : n.isForeignTo package = true → f.DotImports n.path → f.qualifier package n = none
  prefixed : n.isForeignTo package = true → ¬ f.DotImports n.path → ∃ name, f.qualifier package n = some name ∧
    (f.Aliases name n.path ∨ f.NamesPackage imports name n)

variable {f : SourceFile} {package : String} {n : TypeName}

/-- A local name that stands before a type is an alias of the package, or its name. -/
theorem RefersTo.bound {imports : PathSet} (h : f.RefersTo package imports n) (hforeign : n.isForeignTo package = true)
    {name : String} (hname : f.qualifier package n = some name) :
    f.Aliases name n.path ∨ f.NamesPackage imports name n := by
  by_cases hdot : f.DotImports n.path
  · rw [h.dotted hforeign hdot] at hname
    cases hname
  · obtain ⟨name', hname', hbound⟩ := h.prefixed hforeign hdot
    rw [hname', Option.some.injEq] at hname
    exact hname ▸ hbound

/-- What an import binds that is no dot import. -/
theorem boundName_cases {i : ImportSpec} (hdot : i.isDot = false) :
    i.alias? = none ∧ boundName i n = some n.package ∨
      i.alias? = some "_" ∧ boundName i n = none ∨
      ∃ a, i.alias? = some a ∧ a ≠ "_" ∧ boundName i n = some a := by
  unfold boundName
  cases halias : i.alias? with
  | none => exact .inl ⟨rfl, rfl⟩
  | some a =>
    have hne : a ≠ "." := by
      rintro rfl
      rw [ImportSpec.isDot, halias] at hdot
      cases hdot
    rw [ImportSpec.localName, halias]
    by_cases hblank : a = "_"
    · subst hblank
      exact .inr (.inl ⟨rfl, rfl⟩)
    · refine .inr (.inr ⟨a, rfl, hblank, ?_⟩)
      dsimp only
      split <;> simp_all

/-- How a type's name is written, by the imports of its path. -/
theorem qualifier_spec (hforeign : n.isForeignTo package = true) (hdot : ¬ f.DotImports n.path) :
    ∃ name, f.qualifier package n = some name ∧
      (f.Aliases name n.path ∨
        name = n.package ∧ (f.ImportsPlainly n.path ∨ f.Lacks n.path)) := by
  have hnodot : ∀ i ∈ f.imports, i.path = n.path → i.isDot = false := fun i hi hpath => by
    by_contra hyes
    exact hdot ⟨i, hi, hpath, by simpa using hyes⟩
  have hany : ((f.imports.filter fun i => i.path == n.path).any fun i => i.isDot) = false := by
    simpa using hnodot
  have hname : f.qualifier package n =
      some (((f.imports.filter fun i => i.path == n.path).findSome? fun i => boundName i n).getD n.package) := by
    simp only [qualifier, hforeign, hany]
    rfl
  refine ⟨_, hname, ?_⟩
  cases hfound : (f.imports.filter fun i => i.path == n.path).findSome? fun i => boundName i n with
  | some name =>
    obtain ⟨i, hi, hbound⟩ := List.exists_of_findSome?_eq_some hfound
    obtain ⟨hi, hpath⟩ := by simpa using hi
    rw [Option.getD_some]
    rcases boundName_cases (n := n) (hnodot i hi hpath) with ⟨hplain, hpackage⟩ | ⟨-, hnone⟩ | ⟨a, halias, hblank, hsome⟩
    · rw [hpackage, Option.some.injEq] at hbound
      exact .inr ⟨hbound.symm, .inl ⟨i, hi, hpath, hplain⟩⟩
    · rw [hnone] at hbound
      cases hbound
    · rw [hsome, Option.some.injEq] at hbound
      subst hbound
      exact .inl ⟨i, hi, hpath, halias, hblank⟩
  | none =>
    -- no import of the path binds a name, so all of them are blank
    refine .inr ⟨rfl, .inr ?_⟩
    rintro ⟨i, hi, hpath, hnotBlank⟩
    have hnone := List.findSome?_eq_none_iff.mp hfound i (by simpa using ⟨hi, hpath⟩)
    rcases boundName_cases (n := n) (hnodot i hi hpath) with ⟨-, hpackage⟩ | ⟨hblank, -⟩ | ⟨a, -, -, hsome⟩
    · rw [hpackage] at hnone
      cases hnone
    · exact hnotBlank hblank
    · rw [hsome] at hnone
      cases hnone

end SourceFile

/-! ## An example -/

/-- A package with a struct type of which one field stands for a number and is declared with a type of another package,
and two fields are of types of packages of one name. -/
def clashingTree : FileTree :=
  ⟨[(["p"], .directory), (["p", "a.go"], .file (encodeText ("package p\nimport \"r\"\nimport \"x/q\"\n" ++
    "import b \"y/q\"\ntype N[A any] int\ntype T struct\x7b D N[r.V]; A q.U; B [2]*b.U \x7d\n")))], []⟩

/-- A file of the package that gives the name of those packages to a third one. -/
def clashingRequest : FillRequest :=
  ⟨SourceFile.parse "package p\nimport q \"z/w\"\nvar x = T\x7b\x7d\n".toList, some ⟨"p/c.go"⟩, "p", .offset 33⟩

/-- A number type of the package that the number type of the struct has an argument from. -/
def clashingNumber : Ty := .named ⟨"r", "r", "V"⟩ [] (.primitive .int)

/-- What the request gives. -/
def clashingOutput : FillOutput :=
  ⟨[⟨⟨34, 36⟩, "\x7b\n\tD: 0,\n\tA: q.U\x7b\x7d,\n\tB: [2]*q.U\x7bnil, nil\x7d,\n\x7d"⟩],
    ["r", "x/q", "y/q"]⟩

theorem clashing_filled :
    (fill (resolveStruct clashingTree) clashingRequest .standard (.ofPackages .empty)).1 = .filled clashingOutput ∧
    fillNames (resolveStruct clashingTree) clashingRequest .standard (.ofPackages .empty) =
      [⟨"x/q", "q", "U"⟩, ⟨"y/q", "q", "U"⟩] ∧
    fillUnused (resolveStruct clashingTree) clashingRequest .standard (.ofPackages .empty) =
      [⟨"p", "p", "N"⟩, ⟨"r", "r", "V"⟩] := by
  decide +kernel

theorem clashingNumber_dropped :
    ((FillOptions.standard.synthesizer clashingRequest).spelled clashingNumber).names = [] ∧
    (FillOptions.standard.synthesizer clashingRequest).unused clashingNumber = [⟨"r", "r", "V"⟩] := by
  decide +kernel

theorem clashing_filled_eq : ∃ s', fill (resolveStruct clashingTree) clashingRequest .standard (.ofPackages .empty) =
    (.filled clashingOutput, s') := by
  have hpair : ∀ result : FillOutcome × Session, result.1 = .filled clashingOutput →
      ∃ s', result = (.filled clashingOutput, s') := fun result h => ⟨result.2, Prod.ext h rfl⟩
  exact hpair _ clashing_filled.1

theorem clashing_imports : clashingRequest.file.imports = [⟨some "q", "z/w", ⟨17, 24⟩⟩] := by decide +kernel

theorem clashing_aliases {path : String} : clashingRequest.file.Aliases "q" path ↔ path = "z/w" := by
  simp [SourceFile.Aliases, clashing_imports, eq_comm]

theorem clashing_qualifier {path : String} (hpath : path ≠ "" ∧ path ≠ "p" ∧ path ≠ "z/w") :
    clashingRequest.file.qualifier "p" ⟨path, "q", "U"⟩ = some "q" := by
  simp [SourceFile.qualifier, TypeName.isForeignTo, TypeName.isPredeclared, clashing_imports, hpath, Ne.symm hpath.2.2]

/-! ## Imports of a request -/

theorem refersTo_of_mem_fillNames (h : fill resolve r options s = (.filled output, s')) {n : TypeName}
    (hn : n ∈ fillNames resolve r options s) : r.file.RefersTo r.packagePath output.imports n := by
  refine ⟨fun hnear => ?_, fun hforeign hdot => ?_, fun hforeign hdot => ?_⟩
  · simp [SourceFile.qualifier, hnear]
  · obtain ⟨i, hi, hpath, hisdot⟩ := hdot
    have hany : ((r.file.imports.filter fun i => i.path == n.path).any fun i => i.isDot) = true :=
      List.any_eq_true.mpr ⟨i, by simpa using ⟨hi, hpath⟩, hisdot⟩
    simp [SourceFile.qualifier, hany]
  · obtain ⟨name, hname, hbound⟩ := SourceFile.qualifier_spec hforeign hdot
    refine ⟨name, hname, hbound.imp id fun ⟨hpackage, hplain⟩ => ⟨hpackage, hplain.imp id fun hlacks => ?_⟩⟩
    exact ((fill_spells h).2 n.path).mpr ⟨.inl ⟨n, hn, hforeign, rfl⟩, hlacks⟩

/-- The names in the zero values of a request that succeeds can be referred to in the file with the imports of the
output. -/
theorem fill_refersTo (h : fill resolve r options s = (.filled output, s')) :
    output.Spells r options (fillValues resolve r options s) ∧
    ∀ n ∈ fillNames resolve r options s, r.file.RefersTo r.packagePath output.imports n :=
  ⟨(fill_spells h).1, fun _ hn => refersTo_of_mem_fillNames h hn⟩

/-- With the imports that it asks for the file can refer to the two types. -/
theorem clashing_refersTo : ∃ s',
    fill (resolveStruct clashingTree) clashingRequest .standard (.ofPackages .empty) = (.filled clashingOutput, s') ∧
      clashingRequest.file.RefersTo "p" ["r", "x/q", "y/q"] ⟨"x/q", "q", "U"⟩ ∧
      clashingRequest.file.RefersTo "p" ["r", "x/q", "y/q"] ⟨"y/q", "q", "U"⟩ := by
  obtain ⟨s', hfill⟩ := clashing_filled_eq
  have hrefers := (fill_refersTo hfill).2
  rw [clashing_filled.2.1] at hrefers
  exact ⟨s', hfill, hrefers _ (by simp), hrefers _ (by simp)⟩

/-- A zero value asks for no path in vain just when the names that are dropped have paths of names in it, and a
request asks for no import in vain just when they have so among all its zero values. -/
theorem imports_used_iff (z : Synthesizer) (t : Ty) :
    ((z.spelled t).write z.qualifier = (z.synthesize t).1 ∧
      ((∀ p ∈ (z.synthesize t).2, PathAmong z.packagePath (z.spelled t).names p) ↔
        ∀ p, PathAmong z.packagePath (z.unused t) p → PathAmong z.packagePath (z.spelled t).names p)) ∧
    ∀ (resolve : StructResolver) (r : FillRequest) (options : FillOptions) (s s' : Session) (output : FillOutput),
      fill resolve r options s = (.filled output, s') →
      output.Spells r options (fillValues resolve r options s) ∧
      ((∀ p ∈ output.imports, PathAmong r.packagePath (fillNames resolve r options s) p) ↔
        ∀ p, PathAmong r.packagePath (fillUnused resolve r options s) p → r.file.Lacks p →
          PathAmong r.packagePath (fillNames resolve r options s) p) := by
  refine ⟨⟨z.write_spelled t, ?_⟩, fun resolve r options s s' output h => ?_⟩
  · simp only [Synthesizer.mem_synthesize]
    exact ⟨fun h p hp => h p (.inr hp), fun h p hp => hp.elim id (h p)⟩
  · obtain ⟨hspells, himports⟩ := fill_spells h
    refine ⟨hspells, ?_⟩
    simp only [himports]
    exact ⟨fun h p hp hlacks => h p ⟨.inr hp, hlacks⟩, fun h p ⟨hp, hlacks⟩ => hp.elim id fun hp => h p hp hlacks⟩

/-- The zero value of a number type asks for its package in vain, and so does the request for the package that the
number type of the field has an argument from. -/
theorem clashing_asksInVain :
    (¬ ∀ p ∈ ((FillOptions.standard.synthesizer clashingRequest).synthesize clashingNumber).2, PathAmong "p"
      ((FillOptions.standard.synthesizer clashingRequest).spelled clashingNumber).names p) ∧
    ∃ s', fill (resolveStruct clashingTree) clashingRequest .standard (.ofPackages .empty) =
        (.filled clashingOutput, s') ∧
      ¬ ∀ p ∈ clashingOutput.imports,
        PathAmong "p" (fillNames (resolveStruct clashingTree) clashingRequest .standard (.ofPackages .empty)) p := by
  have hiff := imports_used_iff (FillOptions.standard.synthesizer clashingRequest) clashingNumber
  obtain ⟨hnames, hdropped⟩ := clashingNumber_dropped
  refine ⟨fun hused => ?_, ?_⟩
  · obtain ⟨n, hn, -⟩ := hiff.1.2.mp hused "r" ⟨⟨"r", "r", "V"⟩, by simp [hdropped], rfl, rfl⟩
    simp [hnames] at hn
  · obtain ⟨s', hfill⟩ := clashing_filled_eq
    refine ⟨s', hfill, fun hused => ?_⟩
    have hunused := (hiff.2 _ _ _ _ _ _ hfill).2.mp hused
    have hlacks : clashingRequest.file.Lacks "r" := by simp [SourceFile.Lacks, clashing_imports]
    obtain ⟨n, hn, -, hpath⟩ := hunused "r" ⟨⟨"r", "r", "V"⟩, by simp [clashing_filled.2.2], rfl, rfl⟩ hlacks
    rw [clashing_filled.2.1] at hn
    simp only [List.mem_cons, List.not_mem_nil, or_false] at hn
    rcases hn with rfl | rfl <;> exact absurd hpath (by decide)

/-- Names of two packages are written with one local name only if the file gives it to both, or if it is the name of a
package without an alias and the alias of the other one, or if two packages without an alias have the same name. A name
is written with the alias of another package only if it is an alias of its own as well, or the name of its package. -/
theorem fill_localNames (h : fill resolve r options s = (.filled output, s')) :
    output.Spells r options (fillValues resolve r options s) ∧
    (∀ n ∈ fillNames resolve r options s, ∀ m ∈ fillNames resolve r options s,
      n.isForeignTo r.packagePath = true → m.isForeignTo r.packagePath = true → n.path ≠ m.path → ∀ name,
      r.file.qualifier r.packagePath n = some name → r.file.qualifier r.packagePath m = some name →
      r.file.Aliases name n.path ∧ r.file.Aliases name m.path ∨
        r.file.Aliases name n.path ∧ r.file.NamesPackage output.imports name m ∨
        r.file.NamesPackage output.imports name n ∧ r.file.Aliases name m.path ∨
        n.package = m.package ∧ r.file.NamesPackage output.imports name n ∧ r.file.NamesPackage output.imports name m) ∧
    ∀ n ∈ fillNames resolve r options s, n.isForeignTo r.packagePath = true → ∀ name path,
      r.file.qualifier r.packagePath n = some name → r.file.Aliases name path → path ≠ n.path →
      r.file.Aliases name n.path ∨ r.file.NamesPackage output.imports name n := by
  have hbound (n : TypeName) (hn : n ∈ fillNames resolve r options s) (hforeign : n.isForeignTo r.packagePath = true)
      (name : String) (hname : r.file.qualifier r.packagePath n = some name) :
      r.file.Aliases name n.path ∨ r.file.NamesPackage output.imports name n :=
    (refersTo_of_mem_fillNames h hn).bound hforeign hname
  refine ⟨(fill_spells h).1, ?_, fun n hn hforeign name _ hname _ _ => hbound n hn hforeign name hname⟩
  intro n hn m hm hforeign hforeign' _ name hname hname'
  rcases hbound n hn hforeign name hname with halias | hpackage <;>
    rcases hbound m hm hforeign' name hname' with halias' | hpackage'
  · exact .inl ⟨halias, halias'⟩
  · exact .inr (.inl ⟨halias, hpackage'⟩)
  · exact .inr (.inr (.inl ⟨hpackage, halias'⟩))
  · exact .inr (.inr (.inr ⟨hpackage.1.symm.trans hpackage'.1, hpackage, hpackage'⟩))

/-- One local name stands for two packages, and is the alias of a third one. -/
theorem clashing_sharesName :
    (fill (resolveStruct clashingTree) clashingRequest .standard (.ofPackages .empty)).1 = .filled clashingOutput ∧
    (∃ n ∈ fillNames (resolveStruct clashingTree) clashingRequest .standard (.ofPackages .empty),
      ∃ m ∈ fillNames (resolveStruct clashingTree) clashingRequest .standard (.ofPackages .empty),
        n.isForeignTo "p" = true ∧ m.isForeignTo "p" = true ∧ n.path ≠ m.path ∧
        clashingRequest.file.qualifier "p" n = some "q" ∧ clashingRequest.file.qualifier "p" m = some "q" ∧
        n.path ≠ "z/w") ∧
    clashingRequest.file.Aliases "q" "z/w" := by
  refine ⟨clashing_filled.1, ?_, clashing_aliases.mpr rfl⟩
  rw [clashing_filled.2.1]
  exact ⟨⟨"x/q", "q", "U"⟩, by simp, ⟨"y/q", "q", "U"⟩, by simp, rfl, rfl, by decide, clashing_qualifier (by decide),
    clashing_qualifier (by decide), by decide⟩

/-- Both types are written with the names of their packages. -/
theorem clashing_localNames : ∃ s',
    fill (resolveStruct clashingTree) clashingRequest .standard (.ofPackages .empty) = (.filled clashingOutput, s') ∧
      clashingRequest.file.NamesPackage clashingOutput.imports "q" ⟨"x/q", "q", "U"⟩ ∧
      clashingRequest.file.NamesPackage clashingOutput.imports "q" ⟨"y/q", "q", "U"⟩ := by
  obtain ⟨s', hfill⟩ := clashing_filled_eq
  obtain ⟨-, hpairs, -⟩ := fill_localNames hfill
  rw [clashing_filled.2.1] at hpairs
  have hcases := hpairs ⟨"x/q", "q", "U"⟩ (by simp) ⟨"y/q", "q", "U"⟩ (by simp) rfl rfl (by decide) "q"
    (clashing_qualifier (by decide)) (clashing_qualifier (by decide))
  refine ⟨s', hfill, ?_⟩
  rcases hcases with ⟨halias, -⟩ | ⟨halias, -⟩ | ⟨-, halias⟩ | ⟨-, hnames⟩
  · exact absurd (clashing_aliases.mp halias) (by decide)
  · exact absurd (clashing_aliases.mp halias) (by decide)
  · exact absurd (clashing_aliases.mp halias) (by decide)
  · exact hnames

end LiteralFill
