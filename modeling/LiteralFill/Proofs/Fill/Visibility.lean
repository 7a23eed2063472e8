import LiteralFill.Fill.Request
import LiteralFill.Proofs.Fill.Written

/-!
Which fields zero values set. The import path of the declared type before a literal decides whether its
unexported fields may be set, wherever the struct type is written that declares them. A declared type of the
package that stands for a struct type of another package has the unexported fields of the other package set,
and so has an alias that stands for a struct type without a name; nothing else has.
-/

namespace LiteralFill

/-! ## The literals of a value -/

namespace ZeroExpr

mutual

/-- The fields that each literal in a value sets, a literal before those in its fields. -/
def literals : ZeroExpr → List (List String)
  | text _ => []
  | composite _ fields => fields.map (·.1) :: fieldLiterals fields

def fieldLiterals : List (String × ZeroExpr) → List (List String)
  | [] => []
  | (_, value) :: rest => value.literals ++ fieldLiterals rest

end

end ZeroExpr

/-- The fields that each literal in a zero value sets. -/
def MergedEntry.literals (e : MergedEntry) : List (List String) :=
  match e.value with
  | .zero expr => expr.literals
  | .source _ => []

/-- The fields that each literal of a merged literal sets by zero values, its own first. -/
def Merged.literals (m : Merged) : List (List String) :=
  (m.entries.filter fun e => !e.userSupplied).map (·.name) :: m.entries.flatMap (·.literals)

/-- A literal that is written out: the path that decides on its fields, the package in whose file its struct
type is written, and the fields that are not set by an element. -/
structure FilledLiteral where
  decides : String
  written : String
  unset : List String

namespace FilledLiteral

/-- The fields that zero values set in a file of a package. -/
def zeroed (package : String) (l : FilledLiteral) : List String :=
  l.unset.filter fun name => isExported name || l.decides == package

/-- Each field that a zero value sets is exported, or declared in a file of the package. -/
def InventsNothing (package : String) (l : FilledLiteral) : Prop :=
  ∀ name ∈ l.zeroed package, isExported name = true ∨ l.written = package

theorem inventsNothing_iff {package : String} {l : FilledLiteral} :
    l.InventsNothing package ↔
      (l.decides = package → l.written ≠ package → ∀ name ∈ l.unset, isExported name = true) := by
  simp only [InventsNothing, zeroed, List.mem_filter, Bool.or_eq_true, beq_iff_eq]
  constructor
  · intro h hdecides hwritten name hname
    exact (h name ⟨hname, .inr hdecides⟩).resolve_right hwritten
  · rintro h name ⟨hname, hexported | hdecides⟩
    · exact .inl hexported
    · by_cases hwritten : l.written = package
      · exact .inr hwritten
      · exact .inl (h hdecides hwritten name hname)

end FilledLiteral

namespace WrittenTy

mutual

/-- The literals of the zero value of a type. `outer` is the declared type that stands for this one. -/
def literals (z : Synthesizer) (recurse : Bool) (visiting : List TypeName) (outer : Option TypeName) :
    WrittenTy → List FilledLiteral
  | named n _ t =>
    match outer with
    | some o => literals z recurse visiting (some o) t
    | none => if z.wellKnown.contains n.qualified then [] else literals z recurse visiting (some n) t
  | struct package fields =>
    match outer with
    | some n =>
      if recurse && !visiting.contains n then
        let l : FilledLiteral := ⟨n.path, package, fields.map (·.name)⟩
        if (l.zeroed z.packagePath).isEmpty then []
        else l :: fieldLiterals z recurse (n :: visiting) (n.path == z.packagePath) fields
      else []
    | none => []
  | array .. | other _ => []

/-- The literals of the zero values of the fields that may be set. -/
def fieldLiterals (z : Synthesizer) (recurse : Bool) (visiting : List TypeName) (samePackage : Bool) :
    List (Field WrittenTy) → List FilledLiteral
  | [] => []
  | ⟨name, t, _, _⟩ :: rest =>
    let more := fieldLiterals z recurse visiting samePackage rest
    if isExported name || samePackage then literals z recurse visiting none t ++ more else more

end

end WrittenTy

/-! ## Zero values -/

/-- A type whose values hold no struct in sight has no literal with fields as its zero value. -/
theorem Synthesizer.zero_literals_nil (z : Synthesizer) (recurse : Bool) (visiting : List TypeName) :
    ∀ (t : Ty) (outer : Option (TypeName × String)), t.structFields = none →
      (z.zero recurse visiting outer t).1.literals = []
  | .named n args t, outer, h => by
    have ih := zero_literals_nil z recurse visiting t
    cases outer with
    | some o =>
      rw [zero]
      exact ih _ h
    | none =>
      rw [zero]
      dsimp only
      split
      · rfl
      · exact ih _ h
  | .array length t, outer, _ => by
    cases outer <;> rw [zero] <;> dsimp only <;> split <;> rfl
  | .struct fields, _, h => by cases h
  | .primitive _, _, _ | .pointer _, _, _ | .slice _, _, _ | .map .., _, _ | .chan .., _, _ | .func _, _, _
  | .interface _, _, _ | .param _, _, _ | .unseen _, _, _ => by
    rw [zero]
    rfl

mutual

/-- The literals of a zero value are those of its type. -/
theorem Synthesizer.zero_literals (z : Synthesizer) (recurse : Bool) (visiting : List TypeName) :
    ∀ (w : WrittenTy) (outer : Option (TypeName × String)), w.IsNoted →
      (z.zero recurse visiting outer w.ty).1.literals =
        (w.literals z recurse visiting (outer.map (·.1))).map (·.zeroed z.packagePath)
  | .named n args t, outer, h => by
    have ih := zero_literals z recurse visiting t
    cases outer with
    | some o =>
      rw [WrittenTy.ty, zero, Option.map_some, WrittenTy.literals]
      exact ih _ h
    | none =>
      rw [WrittenTy.ty, zero, Option.map_none, WrittenTy.literals]
      dsimp only
      split
      · rfl
      · exact ih _ h
  | .array length t, outer, _ => by
    cases outer <;> rw [WrittenTy.ty, zero] <;> dsimp only <;> split <;> rfl
  | .other t, outer, h => by
    rw [WrittenTy.ty, zero_literals_nil z recurse visiting t outer h]
    rfl
  | .struct package fields, outer, h => by
    cases outer with
    | none =>
      rw [WrittenTy.ty, zero]
      rfl
    | some o =>
      obtain ⟨n, shown⟩ := o
      obtain ⟨hliterals, hnames⟩ :=
        zeroFields_literals z recurse (n :: visiting) (n.path == z.packagePath) fields h
      rw [WrittenTy.ty, zero, Option.map_some, WrittenTy.literals]
      dsimp only
      split
      · cases hvalues : z.zeroFields recurse (n :: visiting) (n.path == z.packagePath)
            (WrittenTy.tyFields fields) with
        | mk values names =>
          rw [hvalues] at hliterals hnames
          have hzeroed : values.map (·.1) =
              FilledLiteral.zeroed z.packagePath ⟨n.path, package, fields.map (·.name)⟩ := hnames
          rw [← hzeroed]
          cases values with
          | nil => rfl
          | cons value rest =>
            rw [List.map_cons, List.isEmpty_cons, if_neg (by simp), List.map_cons, ← hliterals, ← hzeroed]
            rfl
      · rfl

theorem Synthesizer.zeroFields_literals (z : Synthesizer) (recurse : Bool) (visiting : List TypeName)
    (samePackage : Bool) : ∀ fields : List (Field WrittenTy), WrittenTy.AreNoted fields →
      ZeroExpr.fieldLiterals (z.zeroFields recurse visiting samePackage (WrittenTy.tyFields fields)).1 =
        (WrittenTy.fieldLiterals z recurse visiting samePackage fields).map (·.zeroed z.packagePath) ∧
      (z.zeroFields recurse visiting samePackage (WrittenTy.tyFields fields)).1.map (·.1) =
        (fields.map (·.name)).filter fun name => isExported name || samePackage
  | [], _ => ⟨rfl, rfl⟩
  | ⟨name, t, embedded, tag⟩ :: rest, ⟨ht, hrest⟩ => by
    obtain ⟨hliterals, hnames⟩ := zeroFields_literals z recurse visiting samePackage rest hrest
    have hvalue := zero_literals z recurse visiting t none ht
    rw [WrittenTy.tyFields, zeroFields, WrittenTy.fieldLiterals, List.map_cons, List.filter_cons]
    dsimp only
    split
    · refine ⟨?_, ?_⟩
      · rw [ZeroExpr.fieldLiterals, hvalue, hliterals, List.map_append]
        rfl
      · rw [List.map_cons, hnames]
    · exact ⟨hliterals, hnames⟩

end

/-! ## Merged literals -/

/-- The fields of a struct type that no element sets. -/
def unsetFields {τ : Type} (supplied : List (Nat × Element)) (index : Nat) : List (Field τ) → List (Field τ)
  | [] => []
  | f :: rest =>
    if (supplied.lookup index).isSome then unsetFields supplied (index + 1) rest
    else f :: unsetFields supplied (index + 1) rest

/-- The literals of the entries of the fields from a place on. -/
theorem mergeFields_literals {file : SourceFile} {z : Synthesizer} {samePackage : Bool}
    {supplied : List (Nat × Element)} {index : Nat} {fields : List (Field WrittenTy)} {s s' : Session}
    {entries : List MergedEntry} {imports : PathSet} (hnoted : WrittenTy.AreNoted fields)
    (h : mergeFields file z samePackage supplied index (WrittenTy.tyFields fields) s =
      (some (entries, imports), s')) :
    (entries.filter fun e => !e.userSupplied).map (·.name) =
        ((unsetFields supplied index fields).map (·.name)).filter
          (fun name => isExported name || samePackage) ∧
      entries.flatMap (·.literals) = (WrittenTy.fieldLiterals z z.recurse [] samePackage
        (unsetFields supplied index fields)).map (·.zeroed z.packagePath) := by
  induction fields generalizing index s entries imports with
  | nil =>
    cases h
    exact ⟨rfl, rfl⟩
  | cons f rest ih =>
    obtain ⟨name, t, embedded, tag⟩ := f
    obtain ⟨ht, hrest⟩ := hnoted
    rw [WrittenTy.tyFields, mergeFields] at h
    unfold unsetFields
    split at h
    · next e hlookup =>
      rw [hlookup]
      split at h
      · next hmore =>
        cases h
        have hentries := ih hrest hmore
        exact hentries
      · cases h
    · next hlookup =>
      rw [hlookup, if_neg (by simp), List.map_cons, List.filter_cons, WrittenTy.fieldLiterals]
      split at h
      · next hshown =>
        split at h
        · cases h
        · dsimp only at h
          split at h
          · next hmore =>
            cases h
            obtain ⟨hnames, hliterals⟩ := ih hrest hmore
            have hvalue := z.zero_literals z.recurse [] t none ht
            have hexported : (isExported name || samePackage) = true := hshown
            rw [if_pos hexported, if_pos hexported]
            refine ⟨?_, ?_⟩
            · rw [← hnames]
              rfl
            · rw [List.flatMap_cons, hliterals, List.map_append]
              exact congrArg (· ++ _) hvalue
          · cases h
      · next hshown =>
        have hexported : ¬ (isExported name || samePackage) = true := hshown
        rw [if_neg hexported, if_neg hexported]
        exact ih hrest h

/-- The literals that are written out for a struct type: its own, and those in the zero values of the fields
that no element sets. -/
def filledLiterals (z : Synthesizer) (decides written : String) (supplied : List (Nat × Element))
    (fields : List (Field WrittenTy)) : List FilledLiteral :=
  ⟨decides, written, (unsetFields supplied 0 fields).map (·.name)⟩ ::
    WrittenTy.fieldLiterals z z.recurse [] (decides == z.packagePath) (unsetFields supplied 0 fields)

theorem merge_literals {file : SourceFile} {literal : CompositeLiteral} {resolved : ResolvedStruct}
    {z : Synthesizer} {s s' : Session} {merged : Merged} {fields : List (Field WrittenTy)}
    (hfields : resolved.fields = WrittenTy.tyFields fields) (hnoted : WrittenTy.AreNoted fields)
    (h : merge file literal resolved z s = (.ok (some merged), s')) (written : String) :
    ∃ supplied, matchElements resolved.fields literal (file.slice literal.typeSpan) = .ok supplied ∧
      merged.literals = (filledLiterals z resolved.packagePath written supplied fields).map
        (·.zeroed z.packagePath) := by
  unfold merge at h
  split at h
  · cases h
  · next supplied hsupplied =>
    refine ⟨supplied, hsupplied, ?_⟩
    rw [hfields] at h
    dsimp only at h
    split at h
    · next hmerge =>
      cases h
      obtain ⟨hnames, hliterals⟩ := mergeFields_literals hnoted hmerge
      rw [Merged.literals, hnames, hliterals]
      rfl
    · cases h

/-! ## Filled literals -/

namespace WrittenTy

theorem structType_ty {w : WrittenTy} (h : w.IsNoted) :
    w.ty.structFields = w.structType.map fun e => tyFields e.2 := by
  match w with
  | named n args t => exact structType_ty (w := t) h
  | array .. => rfl
  | struct .. => rfl
  | other t => exact h

theorem areNoted_of_structType {w : WrittenTy} {written : String} {fields : List (Field WrittenTy)}
    (h : w.IsNoted) (hstruct : w.structType = some (written, fields)) : AreNoted fields := by
  match w with
  | named n args t => exact areNoted_of_structType (w := t) h hstruct
  | struct .. =>
    cases hstruct
    exact h

theorem decidingPath_ty {w : WrittenTy} {e : String × List (Field WrittenTy)}
    (hstruct : w.structType = some e) (scope : Scope) :
    decidingPath scope w.ty = w.path?.getD scope.packagePath := by
  match w with
  | named .. | struct .. => rfl
  | array .. | other _ => cases hstruct

end WrittenTy

/-- What the resolver answers, with the notes. -/
theorem resolveStruct_written {tree : FileTree} {scope : Scope} {type : TypeExpr} {s s' : Session}
    {resolved : ResolvedStruct} (h : resolveStruct tree scope type s = (.ok resolved, s')) :
    ∃ w written fields, writtenType tree scope type s = (.ok w, s') ∧
      w.structType = some (written, fields) ∧ WrittenTy.AreNoted fields ∧
      resolved.fields = WrittenTy.tyFields fields ∧
      resolved.packagePath = w.path?.getD scope.packagePath := by
  rw [resolveStruct_eq] at h
  obtain ⟨package, s₁, hpackage, h⟩ := Resolution.bind_ok h
  obtain ⟨t, s₂, ht, hstruct⟩ := Resolution.bind_ok h
  have hargs : (scope.env package).arguments = WrittenArguments.types [] := rfl
  rw [← writtenWithin_ty tree (nestingBound tree scope.file) hargs] at ht
  obtain ⟨w, s₃, hw, hty⟩ := Resolution.bind_ok ht
  cases hty
  have hnoted := (writtenWithin_noted tree (nestingBound tree scope.file) hargs (by simp) type .root).answer hw
  have hrun : writtenType tree scope type s = (.ok w, s₂) := (Resolution.bind_of_ok hpackage _).trans hw
  unfold structOf ResolvedStruct.ofType? at hstruct
  rw [WrittenTy.structType_ty hnoted] at hstruct
  cases hfields : w.structType with
  | none =>
    rw [hfields] at hstruct
    cases hstruct
  | some e =>
    rw [hfields] at hstruct
    cases hstruct
    obtain ⟨written, fields⟩ := e
    exact ⟨w, written, fields, hrun, hfields, WrittenTy.areNoted_of_structType hnoted hfields, rfl,
      WrittenTy.decidingPath_ty hfields scope⟩

/-- The literals that an edit writes out for a literal of a file, its own first, each with the package in whose
file its struct type is written. -/
structure WritesOut (tree : FileTree) (r : FillRequest) (options : FillOptions) (literal : CompositeLiteral)
    (s : Session) (edit : TextEdit) (literals : List FilledLiteral) : Prop where
  /-- The text of the edit sets the fields of these literals, and no others. -/
  text : ∃ merged : Merged, merged.literals = literals.map (·.zeroed r.packagePath) ∧
    edit.text = render merged (String.ofList (indentAt r.file.text literal.lbrace)) options.layout
  /-- The literals are those of the type before the braces, as the resolver finds it. -/
  type : ∃ s' w written fields supplied,
    writtenType tree ⟨r.file, r.path, r.packagePath, literal.lbrace⟩ literal.type s.poll.2 = (.ok w, s') ∧
    w.structType = some (written, fields) ∧
    matchElements (WrittenTy.tyFields fields) literal (r.file.slice literal.typeSpan) = .ok supplied ∧
    literals = filledLiterals (options.synthesizer r) (w.path?.getD r.packagePath) written supplied fields

section

variable {tree : FileTree} {r : FillRequest} {options : FillOptions} {literal : CompositeLiteral}
  {s s' : Session} {edit : TextEdit} {paths : PathSet}

theorem exists_writesOut
    (h : fillLiteral (resolveStruct tree) r options literal s = (.edited edit paths, s')) :
    ∃ literals, WritesOut tree r options literal s edit literals := by
  unfold fillLiteral at h
  split at h
  · cases h
  · next s₁ hpoll =>
    split at h
    · next e _ _ =>
      have herror := congrArg Prod.fst h
      cases e with
      | notAStruct name underlying =>
        unfold onResolveError at herror
        dsimp only at herror
        split at herror <;> cases herror
      | _ => cases herror
    · next resolved s₂ hresolved =>
      obtain ⟨w, written, fields, hw, hstruct, hnoted, hfields, hpath⟩ := resolveStruct_written hresolved
      unfold fillResolved at h
      split at h
      · cases h
      · cases h
      · next merged s₃ hmerged =>
        cases h
        obtain ⟨supplied, hsupplied, hliterals⟩ := merge_literals hfields hnoted hmerged written
        rw [hfields] at hsupplied
        rw [hpath] at hliterals
        refine ⟨_, ⟨merged, hliterals, rfl⟩, s₂, w, written, fields, supplied, ?_, hstruct, hsupplied, rfl⟩
        rw [hpoll]
        exact hw

/-- An edit sets unexported fields only of struct types that are written in the package of its file, exactly
when none of the literals it writes out stands for a declared type of the package, or a type without a name,
whose struct type another package has written with an unexported field that is left to set. -/
theorem fillLiteral_inventsNothing_iff
    (h : fillLiteral (resolveStruct tree) r options literal s = (.edited edit paths, s')) :
    ∃ literals, WritesOut tree r options literal s edit literals ∧
      ((∀ l ∈ literals, l.InventsNothing r.packagePath) ↔
        ∀ l ∈ literals, l.decides = r.packagePath → l.written ≠ r.packagePath →
          ∀ name ∈ l.unset, isExported name = true) := by
  obtain ⟨literals, hout⟩ := exists_writesOut h
  refine ⟨literals, hout, ?_⟩
  simp only [FilledLiteral.inventsNothing_iff]

end

theorem unsetFields_nil {τ : Type} (index : Nat) (fields : List (Field τ)) :
    unsetFields [] index fields = fields := by
  induction fields generalizing index with
  | nil => rfl
  | cons f rest ih =>
    rw [unsetFields, ih]
    rfl

/-- A package with a struct type that has an unexported field. -/
def ownerTree : FileTree :=
  ⟨[(["q"], .directory), (["q", "q.go"], .file "package q\ntype C struct \x7b x int \x7d".toUTF8.toList)], []⟩

def ownerSession : Session := .ofPackages { PackageDb.empty with roots := [⟨"."⟩] }

/-- A declared type that stands for the struct type of the other package. -/
def borrowerText : List Char := "package p\nimport \"q\"\ntype M q.C\nvar x = M\x7b\x7d".toList

/-- The unexported field of the other package is set. -/
theorem fillLiteral_invents :
    let r : FillRequest := ⟨.parse borrowerText, none, "p", .line 4⟩
    ∃ literal ∈ r.file.literals, ∃ edit paths s',
      fillLiteral (resolveStruct ownerTree) r .standard literal ownerSession = (.edited edit paths, s') ∧
      ∃ literals, WritesOut ownerTree r .standard literal ownerSession edit literals ∧
        ¬ ∀ l ∈ literals, l.InventsNothing "p" := by
  intro r
  obtain ⟨literal, hliteral⟩ := List.length_eq_one_iff.mp
    (show (SourceFile.parse borrowerText).literals.length = 1 by decide +kernel)
  have hmem : literal ∈ (SourceFile.parse borrowerText).literals := by simp [hliteral]
  have hfilled : ∀ l ∈ (SourceFile.parse borrowerText).literals, l.elements = [] ∧
      (match (fillLiteral (resolveStruct ownerTree) r .standard l ownerSession).1 with
        | .edited _ _ => true
        | _ => false) = true := by
    decide +kernel
  have hnoted : ∀ l ∈ (SourceFile.parse borrowerText).literals,
      (match (writtenType ownerTree ⟨.parse borrowerText, none, "p", l.lbrace⟩ l.type
          ownerSession.poll.2).1 with
        | .ok w => w.path? = some "p" &&
            w.structType.map (fun e => (e.1, e.2.map (·.name))) = some ("q", ["x"])
        | .error _ => false) = true := by
    decide +kernel
  obtain ⟨helements, hedited⟩ := hfilled literal hmem
  have hw := hnoted literal hmem
  obtain ⟨edit, paths, s', h⟩ : ∃ edit paths s',
      fillLiteral (resolveStruct ownerTree) r .standard literal ownerSession = (.edited edit paths, s') := by
    generalize fillLiteral _ _ _ _ _ = p at hedited ⊢
    obtain ⟨outcome, s'⟩ := p
    cases outcome with
    | edited edit paths => exact ⟨edit, paths, s', rfl⟩
    | _ => cases hedited
  obtain ⟨literals, hout, hiff⟩ := fillLiteral_inventsNothing_iff h
  refine ⟨literal, hmem, edit, paths, s', h, literals, hout, fun hall => ?_⟩
  obtain ⟨s₂, w, written, fields, supplied, hrun, hstruct, hsupplied, rfl⟩ := hout.type
  have hnone : supplied = [] := by
    simpa [matchElements, helements] using hsupplied.symm
  subst hnone
  change writtenType ownerTree ⟨.parse borrowerText, none, "p", literal.lbrace⟩ literal.type
    ownerSession.poll.2 = _ at hrun
  rw [hrun] at hw
  simp only [hstruct, Option.map_some, Bool.and_eq_true, decide_eq_true_eq, Option.some.injEq,
    Prod.mk.injEq] at hw
  obtain ⟨hpath, rfl, hnames⟩ := hw
  have hunset : "x" ∈ (unsetFields [] 0 fields).map (·.name) := by
    rw [unsetFields_nil, hnames]
    exact List.mem_singleton_self _
  have hexported := hiff.mp hall _ List.mem_cons_self (by rw [hpath]; rfl)
    (show "q" ≠ "p" by decide) "x" hunset
  exact absurd hexported (by decide)

end LiteralFill
