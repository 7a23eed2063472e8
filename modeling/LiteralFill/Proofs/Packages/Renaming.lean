import LiteralFill.Proofs.Fill.Lockstep
import LiteralFill.Proofs.Packages.Copies

/-!
A file that imports a package under another name. What is read from two such files is the same but for the name, which
stands in the import and before the types of the package, and for what no package keeps of its files.
-/

namespace LiteralFill

/-! ## Written types -/

namespace TypeExpr

/-- The name of a package before a type, `a` in one file and `b` in the other; no other package has these names. -/
def renamesQualifier (a b : String) (q q' : Option String) : Bool :=
  (q == some a && q' == some b) || (q == q' && q != some a && q != some b)

/-- Function and interface types are kept as text, which is not compared, unless it is a name. -/
def renamesText (t t' : String) : Bool := t == t' || (predeclaredType t).isNone && (predeclaredType t').isNone

mutual

/-- A written type is another one with the name `b` before types in the place of `a`. -/
def renames (a b : String) : TypeExpr → TypeExpr → Bool
  | .name q n args, .name q' n' args' => renamesQualifier a b q q' && n == n' && renamesAll a b args args'
  | .pointer t, .pointer t' => renames a b t t'
  | .slice t, .slice t' => renames a b t t'
  | .array l t, .array l' t' => l == l' && renames a b t t'
  | .map k v, .map k' v' => renames a b k k' && renames a b v v'
  | .chan d t, .chan d' t' => d == d' && renames a b t t'
  | .func t, .func t' => renamesText t t'
  | .interface t, .interface t' => renamesText t t'
  | .struct decls, .struct decls' => renamesLines a b decls decls'
  | _, _ => false

def renamesAll (a b : String) : List TypeExpr → List TypeExpr → Bool
  | [], [] => true
  | t :: rest, t' :: rest' => renames a b t t' && renamesAll a b rest rest'
  | _, _ => false

def renamesLines (a b : String) : List (FieldDecl TypeExpr) → List (FieldDecl TypeExpr) → Bool
  | [], [] => true
  | ⟨names, t, tag, _⟩ :: rest, ⟨names', t', tag', _⟩ :: rest' =>
    names == names' && tag == tag' && renames a b t t' && renamesLines a b rest rest'
  | _, _ => false

end

end TypeExpr

/-! ## Files -/

/-- An import with another name. -/
def ImportSpec.renames (a b : String) (i j : ImportSpec) : Bool :=
  i.path == j.path && (i.alias? == j.alias? || (i.alias? == some a && j.alias? == some b))

/-- A declaration in which a package has another name. It may stand elsewhere. -/
def TypeDecl.renames (a b : String) (d e : TypeDecl) : Bool :=
  d.name == e.name && d.params == e.params && d.isAlias == e.isAlias && d.scope.isNone == e.scope.isNone &&
    d.type.renames a b e.type

/-- A constant that may stand elsewhere. -/
def ConstDecl.isAlike (c d : ConstDecl) : Bool :=
  c.name == d.name && c.value == d.value && c.scope.isNone == d.scope.isNone

/-- A file imports the package of a path as `a`, and another file, which is the same otherwise, as `b`. -/
def SourceFile.renames (a b path : String) (f g : SourceFile) : Bool :=
  a != "." && b != "." && f.package == g.package && f.imports.isEqv g.imports (ImportSpec.renames a b) &&
    (f.importByName a).map (·.path) == some path && (g.importByName b).map (·.path) == some path &&
    f.types.isEqv g.types (TypeDecl.renames a b) && f.consts.isEqv g.consts ConstDecl.isAlike

/-- The text of the file at a place. -/
def FileTree.textAt (t : FileTree) (place : Place) : Option String :=
  match t.entryAt place with
  | some (.file bytes) => decodeText bytes
  | _ => none

/-- Two trees with two files at a place that import the package of a path under two names. -/
structure Renaming where
  tree : Bool → FileTree
  place : Place
  text : Bool → String
  name : Bool → String
  path : String
  same : FileTree.SameBut place (tree false) (tree true)
  reads (i : Bool) : (tree i).textAt place = some (text i)
  renames : (SourceFile.parse (text false).toList).renames (name false) (name true) path
    (SourceFile.parse (text true).toList) = true

namespace Renaming

variable (c : Renaming)

/-- The file that is read at the place. -/
def file (i : Bool) : SourceFile := .parse (c.text i).toList

/-- What stands before the types in the file: the name of the package, or one that is the same in both files. -/
def Qualifies (q : Bool → String) : Prop := q = c.name ∨ ∃ s, q = (fun _ => s) ∧ ∀ i, s ≠ c.name i

/-- A written type and the same with the other name. -/
def Renamed (t : Bool → TypeExpr) : Prop := (t false).renames (c.name false) (c.name true) (t true) = true

end Renaming

/-- Function and interface types as they are written: the same, or any texts that are no names. -/
def FormsAlike {ι : Type} (text : ι → String) : Prop := Same text ∨ ∀ i, predeclaredType (text i) = none

/-- Lists that are alike, element by element. -/
theorem isEqv_families {α : Type} {r : α → α → Bool} {l l' : List α} (h : l.isEqv l' r = true) :
    ∃ pairs : List (Bool → α), (∀ i, cond i l' l = pairs.map (· i)) ∧ ∀ p ∈ pairs, r (p false) (p true) = true := by
  induction l generalizing l' with
  | nil =>
    cases l' with
    | nil => exact ⟨[], fun i => by cases i <;> rfl, by simp⟩
    | cons b rest' => cases h
  | cons a rest ih =>
    cases l' with
    | nil => cases h
    | cons b rest' =>
      rw [List.isEqv, Bool.and_eq_true] at h
      obtain ⟨pairs, hpairs, hrest⟩ := ih h.2
      refine ⟨(fun i => cond i b a) :: pairs, fun i => ?_, ?_⟩
      · rw [List.map_cons, ← hpairs]
        cases i <;> rfl
      · intro p hp
        rcases List.mem_cons.mp hp with rfl | hp
        · exact h.1
        · exact hrest p hp

namespace TypeExpr

theorem renamesAll_eq (a b : String) (l l' : List TypeExpr) : renamesAll a b l l' = l.isEqv l' (renames a b) := by
  induction l generalizing l' with
  | nil => cases l' <;> simp [renamesAll, List.isEqv]
  | cons t rest ih => cases l' <;> simp [renamesAll, List.isEqv, ih]

/-- One line of a struct type with another name of a package. -/
def renamesLine (a b : String) (d d' : FieldDecl TypeExpr) : Bool :=
  d.names == d'.names && d.tag == d'.tag && renames a b d.type d'.type

theorem renamesLines_eq (a b : String) (l l' : List (FieldDecl TypeExpr)) :
    renamesLines a b l l' = l.isEqv l' (renamesLine a b) := by
  induction l generalizing l' with
  | nil => cases l' <;> simp [renamesLines, List.isEqv]
  | cons d rest ih =>
    obtain ⟨names, t, tag, span⟩ := d
    cases l' with
    | nil => simp [renamesLines, List.isEqv]
    | cons d' rest' => simp [renamesLines, List.isEqv, renamesLine, ih]

end TypeExpr

namespace Renaming

variable {c : Renaming}

theorem eq_cond {α : Type} (t : Bool → α) : t = fun i => cond i (t true) (t false) :=
  funext fun i => by cases i <;> rfl

theorem qualifies_of_renames {q q' : Option String}
    (h : TypeExpr.renamesQualifier (c.name false) (c.name true) q q' = true) :
    (q = none ∧ q' = none) ∨ ∃ s : Bool → String, c.Qualifies s ∧ q = some (s false) ∧ q' = some (s true) := by
  simp only [TypeExpr.renamesQualifier, Bool.or_eq_true, Bool.and_eq_true, beq_iff_eq, bne_iff_ne] at h
  rcases h with ⟨hq, hq'⟩ | ⟨⟨rfl, hne⟩, hne'⟩
  · exact .inr ⟨c.name, .inl rfl, hq, hq'⟩
  · cases q with
    | none => exact .inl ⟨rfl, rfl⟩
    | some s =>
      refine .inr ⟨fun _ => s, .inr ⟨s, rfl, fun i hi => ?_⟩, rfl, rfl⟩
      cases i with
      | false => exact hne (congrArg some hi)
      | true => exact hne' (congrArg some hi)

/-- A name without arguments has no other name. -/
theorem argTogether_of_renamed {t : Bool → TypeExpr} (h : c.Renamed t) : ArgTogether t := by
  have hname (e e' : TypeExpr) (h : e.renames (c.name false) (c.name true) e' = true) (name : String) :
      e = .name none name [] ↔ e' = .name none name [] := by
    cases e <;> cases e' <;> simp only [TypeExpr.renames, Bool.and_eq_true, beq_iff_eq, Bool.false_eq_true] at h <;>
      try simp
    case name.name q n args q' n' args' =>
      obtain ⟨⟨hq, rfl⟩, hall⟩ := h
      have hargs : args = [] ↔ args' = [] := by
        cases args <;> cases args' <;> simp_all [TypeExpr.renamesAll]
      have hnone : q = none ↔ q' = none := by
        rcases qualifies_of_renames hq with ⟨rfl, rfl⟩ | ⟨s, -, rfl, rfl⟩ <;> simp
      rw [hargs, hnone]
  by_cases hplain : ∃ name, t false = .name none name []
  · obtain ⟨name, hfirst⟩ := hplain
    refine .inl ⟨name, funext fun i => ?_⟩
    cases i with
    | false => exact hfirst
    | true => exact (hname _ _ h name).mp hfirst
  · refine .inr fun i name hi => hplain ⟨name, ?_⟩
    cases i with
    | false => exact hi
    | true => exact (hname _ _ h name).mpr hi

theorem linesTogether_of_renames {d : Bool → FieldDecl TypeExpr}
    (h : TypeExpr.renamesLine (c.name false) (c.name true) (d false) (d true) = true) :
    LinesTogether c.Renamed d := by
  simp only [TypeExpr.renamesLine, Bool.and_eq_true, beq_iff_eq] at h
  obtain ⟨⟨hnames, htag⟩, htype⟩ := h
  have hembedded : (d true).embeddedName = (d false).embeddedName := by
    unfold FieldDecl.embeddedName
    generalize (d false).type = e at htype
    generalize (d true).type = e' at htype
    cases e <;> cases e' <;>
      simp only [TypeExpr.renames, Bool.and_eq_true, beq_iff_eq, Bool.false_eq_true] at htype <;> try rfl
    case name.name => rw [htype.1.2]
    case pointer.pointer t t' =>
      cases t <;> cases t' <;>
        simp only [TypeExpr.renames, Bool.and_eq_true, beq_iff_eq, Bool.false_eq_true] at htype <;> try rfl
      rw [htype.1.2]
  refine ⟨⟨((d false).names, (d false).tag, (d false).embeddedName), funext fun i => ?_⟩, htype⟩
  cases i with
  | false => rfl
  | true => rw [hnames, htag, hembedded]

/-- A written type with the other name is of the same form. -/
theorem form_of_renamed {t : Bool → TypeExpr} (h : c.Renamed t) :
    FormTogether c.Qualifies FormsAlike c.Renamed t := by
  have hform {type : Bool → TypeExpr} (htype : FormTogether c.Qualifies FormsAlike c.Renamed type)
      (hfirst : type false = t false) (hsecond : type true = t true) :
      FormTogether c.Qualifies FormsAlike c.Renamed t := by
    rw [eq_cond type, hfirst, hsecond, ← eq_cond t] at htype
    exact htype
  have hargs {l l' : List TypeExpr} (h : TypeExpr.renamesAll (c.name false) (c.name true) l l' = true) :
      ∃ args : List (Bool → TypeExpr), (∀ i, cond i l' l = args.map (· i)) ∧ ∀ t ∈ args, c.Renamed t := by
    rw [TypeExpr.renamesAll_eq] at h
    exact isEqv_families h
  have htext {text text' : String} (h : TypeExpr.renamesText text text' = true) :
      FormsAlike fun i => cond i text' text := by
    simp only [TypeExpr.renamesText, Bool.or_eq_true, beq_iff_eq, Bool.and_eq_true, Option.isNone_iff_eq_none] at h
    rcases h with rfl | ⟨hfirst, hsecond⟩
    · exact .inl ⟨text, funext fun i => by cases i <;> rfl⟩
    · exact .inr fun i => by cases i <;> assumption
  unfold Renamed at h
  generalize t false = e at h hform
  generalize t true = e' at h hform
  cases e <;> cases e' <;> simp only [TypeExpr.renames, Bool.and_eq_true, beq_iff_eq, Bool.false_eq_true] at h
  case name.name q n args q' n' args' =>
    obtain ⟨⟨hq, rfl⟩, hall⟩ := h
    obtain ⟨families, hfamilies, hrenamed⟩ := hargs hall
    obtain ⟨hfirst, hsecond⟩ : args = families.map (· false) ∧ args' = families.map (· true) :=
      ⟨hfamilies false, hfamilies true⟩
    rcases qualifies_of_renames hq with ⟨rfl, rfl⟩ | ⟨s, hs, rfl, rfl⟩
    · exact hform (.plain n hrenamed) (by rw [hfirst]) (by rw [hsecond])
    · exact hform (.qualified hs n hrenamed) (by rw [hfirst]) (by rw [hsecond])
  case pointer.pointer t t' => exact hform (.pointer (t := fun i => cond i t' t) h) rfl rfl
  case slice.slice t t' => exact hform (.slice (t := fun i => cond i t' t) h) rfl rfl
  case array.array l t l' t' =>
    obtain ⟨rfl, h⟩ := h
    exact hform (.array l (t := fun i => cond i t' t) h) rfl rfl
  case map.map k v k' v' =>
    exact hform (.map (k := fun i => cond i k' k) (v := fun i => cond i v' v) h.1 h.2) rfl rfl
  case chan.chan d t d' t' =>
    obtain ⟨rfl, h⟩ := h
    exact hform (.chan d (t := fun i => cond i t' t) h) rfl rfl
  case func.func text text' =>
    have hfunc : FormTogether c.Qualifies FormsAlike c.Renamed fun i => .func (cond i text' text) := .func (htext h)
    exact hform hfunc rfl rfl
  case interface.interface text text' =>
    have hinterface : FormTogether c.Qualifies FormsAlike c.Renamed fun i => .interface (cond i text' text) :=
      .interface (htext h)
    exact hform hinterface rfl rfl
  case struct.struct decls decls' =>
    rw [TypeExpr.renamesLines_eq] at h
    obtain ⟨lines, hlines, hrenamed⟩ := isEqv_families h
    obtain ⟨hfirst, hsecond⟩ : decls = lines.map (· false) ∧ decls' = lines.map (· true) :=
      ⟨hlines false, hlines true⟩
    exact hform (.struct fun d hd => linesTogether_of_renames (hrenamed d hd)) (by rw [hfirst]) (by rw [hsecond])

/-! ## What is read from the files -/

/-- The first element of lists that are alike, by a property that both elements of a pair have or neither. -/
theorem find?_families {α : Type} {P : α → Bool} {pairs : List (Bool → α)}
    (h : ∀ p ∈ pairs, ∀ i, P (p i) = P (p false)) :
    (∀ i, (pairs.map (· i)).find? P = none) ∨ ∃ p ∈ pairs, ∀ i, (pairs.map (· i)).find? P = some (p i) := by
  induction pairs with
  | nil => exact .inl fun _ => rfl
  | cons p rest ih =>
    have hp := h p List.mem_cons_self
    cases hfirst : P (p false) with
    | true =>
      refine .inr ⟨p, List.mem_cons_self, fun i => ?_⟩
      rw [List.map_cons, List.find?_cons_of_pos (by rw [hp, hfirst])]
    | false =>
      have hskip (i : Bool) : ((p :: rest).map (· i)).find? P = (rest.map (· i)).find? P := by
        rw [List.map_cons, List.find?_cons_of_neg (by rw [hp, hfirst]; simp)]
      simp only [hskip]
      exact (ih fun q hq => h q (List.mem_cons_of_mem _ hq)).imp id
        fun ⟨q, hq, hfound⟩ => ⟨q, List.mem_cons_of_mem _ hq, hfound⟩

theorem filter_families {α : Type} {P : α → Bool} {pairs : List (Bool → α)}
    (h : ∀ p ∈ pairs, ∀ i, P (p i) = P (p false)) (i : Bool) :
    (pairs.map (· i)).filter P = (pairs.filter fun p => P (p false)).map (· i) := by
  rw [List.filter_map]
  exact congrArg _ (List.filter_congr fun p hp => h p hp i)

variable (c)

theorem imports_families : ∃ specs : List (Bool → ImportSpec), (∀ i, (c.file i).imports = specs.map (· i)) ∧
    ∀ spec ∈ specs, (∀ i, (spec i).path = (spec false).path) ∧
      ((∀ i, (spec i).alias? = (spec false).alias?) ∨ ∀ i, (spec i).alias? = some (c.name i)) := by
  have h := c.renames
  simp only [SourceFile.renames, Bool.and_eq_true] at h
  obtain ⟨specs, himports, hspecs⟩ := isEqv_families h.1.1.1.1.2
  refine ⟨specs, fun i => ?_, fun spec hspec => ?_⟩
  · rw [← himports]
    cases i <;> rfl
  · have hspec := hspecs spec hspec
    simp only [ImportSpec.renames, Bool.and_eq_true, Bool.or_eq_true, beq_iff_eq] at hspec
    refine ⟨fun i => ?_, hspec.2.imp (fun halias i => ?_) fun halias i => ?_⟩
    · cases i with
      | false => rfl
      | true => exact hspec.1.symm
    · cases i with
      | false => rfl
      | true => exact halias.symm
    · cases i with
      | false => exact halias.1
      | true => exact halias.2

/-- The name stands for the package in both files. -/
theorem importByName_name (i : Bool) : ((c.file i).importByName (c.name i)).map (·.path) = some c.path := by
  have h := c.renames
  simp only [SourceFile.renames, Bool.and_eq_true, beq_iff_eq] at h
  cases i with
  | false => exact h.1.1.1.2
  | true => exact h.1.1.2

/-- Every other name stands for one path in both files. -/
theorem importByName_other {s : String} (hs : ∀ i, s ≠ c.name i) :
    ∃ path, ∀ i, ((c.file i).importByName s).map (·.path) = path := by
  obtain ⟨specs, himports, hspecs⟩ := c.imports_families
  have hname : ∀ spec ∈ specs, ∀ i, ((spec i).localName == some s) = ((spec false).localName == some s) := by
    intro spec hspec i
    obtain ⟨hpath, hsame | halias⟩ := hspecs spec hspec
    · rw [show (spec i).localName = (spec false).localName by
        simp only [ImportSpec.localName, ImportSpec.defaultName, hpath i, hsame i]]
    · have hother (i : Bool) : ((spec i).localName == some s) = false := by
        have hne := Ne.symm (hs i)
        rw [ImportSpec.localName, halias i]
        split
        · rfl
        · rfl
        · next heq =>
          cases heq
          simpa using hne
        · next heq => cases heq
      rw [hother, hother]
  simp only [SourceFile.importByName, himports]
  rcases find?_families (P := fun i : ImportSpec => i.localName == some s) hname with
    hnone | ⟨spec, hspec, hfound⟩
  · exact ⟨none, fun i => by rw [hnone i]; rfl⟩
  · exact ⟨some (spec false).path, fun i => by rw [hfound i, Option.map_some, (hspecs spec hspec).1 i]⟩

/-- The imports of one kind have the same paths in both files. -/
theorem filter_imports {P : ImportSpec → Bool} (hP : ∀ i j : ImportSpec, i.alias? = j.alias? → P i = P j)
    (hname : ∀ (spec : Bool → ImportSpec) (i : Bool), (∀ i, (spec i).alias? = some (c.name i)) → P (spec i) = false) :
    ∃ specs : List (Bool → ImportSpec), (∀ i, (c.file i).imports.filter P = specs.map (· i)) ∧
      ∀ spec ∈ specs, ∀ i, (spec i).path = (spec false).path := by
  obtain ⟨specs, himports, hspecs⟩ := c.imports_families
  refine ⟨specs.filter fun spec => P (spec false), fun i => ?_,
    fun spec hspec => (hspecs spec (List.mem_filter.mp hspec).1).1⟩
  rw [himports]
  refine filter_families (fun spec hspec i => ?_) i
  rcases (hspecs spec hspec).2 with hsame | halias
  · exact hP _ _ (hsame i)
  · rw [hname spec i halias, hname spec false halias]

theorem dotImports : ∃ specs : List (Bool → ImportSpec), (∀ i, (c.file i).imports.filter (·.isDot) = specs.map (· i)) ∧
    ∀ spec ∈ specs, ∀ i, (spec i).path = (spec false).path := by
  have h := c.renames
  simp only [SourceFile.renames, Bool.and_eq_true, bne_iff_ne] at h
  refine c.filter_imports (fun i j halias => by rw [ImportSpec.isDot, ImportSpec.isDot, halias]) fun spec i halias => ?_
  have hdot : c.name i ≠ "." := by
    cases i with
    | false => exact h.1.1.1.1.1.1.1
    | true => exact h.1.1.1.1.1.1.2
  simpa [ImportSpec.isDot, halias i] using hdot

theorem plainImports : ∃ specs : List (Bool → ImportSpec),
    (∀ i, (c.file i).imports.filter (·.alias?.isNone) = specs.map (· i)) ∧
      ∀ spec ∈ specs, ∀ i, (spec i).path = (spec false).path :=
  c.filter_imports (fun i j halias => by rw [halias]) fun spec i halias => by rw [halias i]; rfl

/-- Declarations of one name in the two files. -/
structure DeclTogether (d : Bool → TypeDecl) : Prop where
  head (i : Bool) : (d i).name = (d false).name ∧ (d i).params = (d false).params ∧ (d i).isAlias = (d false).isAlias
  type : c.Renamed fun i => (d i).type

theorem packageType_eq (f : SourceFile) (name : String) :
    f.packageType name = f.types.find? fun d => d.scope.isNone && d.name == name := by
  unfold SourceFile.packageType SourceFile.packageTypeIndex SourceFile.numberedTypes
  generalize 0 = k
  induction f.types generalizing k with
  | nil => rfl
  | cons d rest ih =>
    rw [List.zipIdx_cons, List.map_cons, List.find?_cons, List.find?_cons]
    dsimp only
    cases d.scope.isNone && d.name == name with
    | true => rfl
    | false => exact ih (k + 1)

theorem packageType_name {f : SourceFile} {name : String} {d : TypeDecl} (h : f.packageType name = some d) :
    d.name = name := by
  rw [packageType_eq] at h
  have hd := List.find?_some h
  simp only [Bool.and_eq_true, beq_iff_eq] at hd
  exact hd.2

theorem packageType_together (name : String) : (∀ i, (c.file i).packageType name = none) ∨
    ∃ d : Bool → TypeDecl, c.DeclTogether d ∧ ∀ i, (c.file i).packageType name = some (d i) := by
  have h := c.renames
  simp only [SourceFile.renames, Bool.and_eq_true] at h
  obtain ⟨decls, hcond, hdecls⟩ := isEqv_families h.1.2
  have htypes (i : Bool) : (c.file i).types = decls.map (· i) := by
    rw [← hcond]
    cases i <;> rfl
  have hrenames : ∀ d ∈ decls, ((((d false).name = (d true).name ∧ (d false).params = (d true).params) ∧
      (d false).isAlias = (d true).isAlias) ∧ (d false).scope.isNone = (d true).scope.isNone) ∧
      c.Renamed fun i => (d i).type := by
    intro d hd
    have hd := hdecls d hd
    simp only [TypeDecl.renames, Bool.and_eq_true, beq_iff_eq] at hd
    exact hd
  have hname : ∀ d ∈ decls, ∀ i, ((d i).scope.isNone && (d i).name == name) =
      ((d false).scope.isNone && (d false).name == name) := by
    intro d hd i
    obtain ⟨⟨⟨⟨hname, -⟩, -⟩, hscope⟩, -⟩ := hrenames d hd
    cases i with
    | false => rfl
    | true => rw [hname, hscope]
  simp only [packageType_eq, htypes]
  refine (find?_families (P := fun d : TypeDecl => d.scope.isNone && d.name == name) hname).imp id
    fun ⟨d, hd, hfound⟩ => ⟨d, ⟨fun i => ?_, (hrenames d hd).2⟩, hfound⟩
  obtain ⟨⟨⟨⟨hname, hparams⟩, halias⟩, -⟩, -⟩ := hrenames d hd
  cases i with
  | false => exact ⟨rfl, rfl, rfl⟩
  | true => exact ⟨hname.symm, hparams.symm, halias.symm⟩

theorem packageConst_same (name : String) : ∃ n, ∀ i, (c.file i).packageConst name = n := by
  have h := c.renames
  simp only [SourceFile.renames, Bool.and_eq_true] at h
  obtain ⟨consts, hcond, hconsts⟩ := isEqv_families h.2
  have hfile (i : Bool) : (c.file i).consts = consts.map (· i) := by
    rw [← hcond]
    cases i <;> rfl
  have halike : ∀ d ∈ consts, ∀ i, (d i).value = (d false).value ∧
      ((d i).scope.isNone && (d i).name == name) = ((d false).scope.isNone && (d false).name == name) := by
    intro d hd i
    have hd := hconsts d hd
    simp only [ConstDecl.isAlike, Bool.and_eq_true, beq_iff_eq] at hd
    obtain ⟨⟨hname, hvalue⟩, hscope⟩ := hd
    cases i with
    | false => exact ⟨rfl, rfl⟩
    | true => rw [hname, hvalue, hscope]; exact ⟨rfl, rfl⟩
  simp only [SourceFile.packageConst, hfile]
  rcases find?_families (P := fun d : ConstDecl => d.scope.isNone && d.name == name)
    fun d hd i => (halike d hd i).2 with hnone | ⟨d, hd, hfound⟩
  · exact ⟨none, fun i => by rw [hnone i]; rfl⟩
  · exact ⟨(d false).value, fun i => by rw [hfound i, Option.bind_some, (halike d hd i).1]⟩

theorem package_same (i : Bool) : (c.file i).package = (c.file false).package := by
  have h := c.renames
  simp only [SourceFile.renames, Bool.and_eq_true, beq_iff_eq] at h
  cases i with
  | false => rfl
  | true => exact h.1.1.1.1.1.2.symm

end Renaming

end LiteralFill
