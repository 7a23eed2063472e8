import LiteralFill.Proofs.Reading.Written
import LiteralFill.Proofs.Reading.Reports

/-!
What a file declares can be written again. In a text without problems its package, its types and their parameters
have names that are names, imports bind names, and each type that is declared or stands before a literal can be
written if its lengths are plain.
-/

namespace LiteralFill

open Reader

/-- An import that binds all names of its package, or one name. -/
def ImportSpec.IsWritten (i : ImportSpec) : Prop := ∀ name ∈ i.alias?, name = "." ∨ IsIdentifier name.toList

/-- A declared type whose names are names. -/
structure TypeDecl.IsWritable (d : TypeDecl) : Prop where
  name : IsIdentifier d.name.toList
  params : ∀ param ∈ d.params, IsIdentifier param.toList
  type : d.type.IsWritable

/-! ## Declarations -/

section

variable {s : Lexed} (hs : s.IsRead) (hsound : ∀ l ∈ lexemes s.text, l.isSound)
include hs hsound

theorem readImport_written : (readImport s).Yields (·.IsWritten) := by
  intro c i h
  unfold readImport at h
  rw [index_bind] at h
  have hpath (found : Option String) (hfound : ∀ name ∈ found, name = "." ∨ IsIdentifier name.toList) :
      (index >>= fun i =>
        if s.kindAt i = some .string || s.kindAt i = some .rawString then
          skip 1 >>= fun _ => give
            ⟨found, String.ofList (unquote (s.nameAt i).toList), ⟨s.startAt c.index, s.stopAt i⟩⟩
        else report s "expected import path" >>= fun _ => fail : Reader ImportSpec).Yields (·.IsWritten) := by
    refine .after fun i => ?_
    split
    · exact .after fun _ => .give hfound
    · exact .after fun _ => .fail
  cases hk : s.kindAt c.index with
  | none =>
    rw [hk] at h
    exact hpath none (by simp) _ i h
  | some kind =>
    rw [hk] at h
    cases kind with
    | ident => exact hpath (some _) (by rintro name ⟨⟩; exact .inr (hs.isIdentifier hsound hk)) _ i h
    | dot => exact hpath (some ".") (by rintro name ⟨⟩; exact .inl rfl) _ i h
    | _ => exact hpath none (by simp) _ i h

theorem paramNames_identifiers (close fuel : Nat) (groupStart : Bool) (i : Nat) :
    ∀ name ∈ paramNames s close fuel groupStart i, IsIdentifier name.toList := by
  induction fuel generalizing groupStart i with
  | zero => simp [paramNames]
  | succ fuel ih =>
    rw [paramNames]
    split
    · dsimp only
      split
      · next hcond =>
        simp only [Bool.and_eq_true, decide_eq_true_eq] at hcond
        refine List.forall_mem_cons.mpr ⟨hs.isIdentifier hsound hcond.2, ?_⟩
        split <;> exact ih _ _
      · split <;> exact ih _ _
    · simp

theorem readParams_identifiers : (readParams s).Yields fun params => ∀ param ∈ params, IsIdentifier param.toList := by
  refine .after fun i => ?_
  split
  · exact .after fun _ => .give (paramNames_identifiers hs hsound _ _ true _)
  · exact .give (by simp)

theorem readTypeSpec_writable (hp : s.IsPaired) (scope : Option Span) :
    (readTypeSpec s scope).Yields (·.IsWritable) := by
  intro c d h
  unfold readTypeSpec at h
  rw [index_bind] at h
  split at h
  · next hk =>
    refine Yields.after (fun _ => (readParams_identifiers hs hsound).bind fun params hparams => .after fun isAlias =>
      (readType_writable hs hsound hp).optional.bind fun type htype => ?_) c d h
    cases type with
    | none => exact .after fun _ => .fail
    | some type => exact .after fun next => .give ⟨hs.isIdentifier hsound hk, hparams, htype type rfl⟩
  · exact Yields.after (fun _ => .fail) c d h

end

/-! ## The pass -/

namespace Outline

variable {s : Lexed}

/-- A step names the package by an identifier, or leaves its name alone. -/
theorem stepOther_package (s : Lexed) (t : Token) (o : Outline) : (stepOther s t o).package = o.package ∨
    ∃ i, s.kindAt i = some .ident ∧ (stepOther s t o).package = some (s.nameAt i) := by
  obtain ⟨kind, start, text⟩ := t
  cases kind with
  | keyword w =>
    cases w with
    | packageWord =>
      simp only [stepOther, step, stepPackage]
      split
      · next hk => exact .inr ⟨_, hk, rfl⟩
      · exact .inl rfl
    | typeWord =>
      left
      simp only [stepOther, step]
      split <;> rfl
    | structWord | interfaceWord =>
      left
      simp only [stepOther, step, stepTypeBody]
      split <;> rfl
    | _ => exact .inl rfl
  | opener b =>
    left
    cases b with
    | brace =>
      simp only [stepOther, step, stepOpenBrace]
      split
      · rfl
      · split <;> rfl
    | _ => rfl
  | closer b =>
    left
    cases b with
    | brace =>
      simp only [stepOther, step, stepCloseBrace]
      split
      · split <;> rfl
      · rfl
    | _ => rfl
  | _ => exact .inl rfl

theorem step_package (s : Lexed) (t : Token) (o : Outline) : (step s t o).package = o.package ∨
    ∃ i, s.kindAt i = some .ident ∧ (step s t o).package = some (s.nameAt i) := by
  rw [step_eq]
  split
  · unfold stepLiteral
    split
    · exact .inl rfl
    · exact stepOther_package s t o
  · exact stepOther_package s t o

/-- What a pass has recorded can be written. -/
structure IsWritable (o : Outline) : Prop where
  package : ∀ name ∈ o.package, IsIdentifier name.toList
  imports : ∀ i ∈ o.imports, i.IsWritten
  types : ∀ d ∈ o.types, d.IsWritable
  literals : ∀ l ∈ o.literals, l.type.IsWritable

section

variable (hs : s.IsRead) (hsound : ∀ l ∈ lexemes s.text, l.isSound)
include hs hsound

variable (hp : s.IsPaired)
include hp

theorem recorded_writable (t : Token) (o : Outline) : ∀ l ∈ recorded s t o, l.type.IsWritable := by
  intro l hl
  unfold recorded at hl
  split at hl
  · obtain ⟨e, he, rfl⟩ := Option.map_eq_some_iff.mp (Option.mem_toList.mp hl)
    obtain ⟨type, hread, -, -, -, hliteral⟩ := literalHere_eq_some.mp he
    rw [hliteral]
    exact readType_writable hs hsound hp ⟨o.index, o.diagnostics⟩ type (by rw [hread])
  · cases hl

theorem IsWritable.step {o : Outline} (h : o.IsWritable) (t : Token) : (step s t o).IsWritable := by
  obtain ⟨htypes, himports, -⟩ := step_records s t o
  have hliterals := step_literals_eq s t o
  constructor
  · rcases step_package s t o with hsame | ⟨i, hk, hname⟩
    · rw [hsame]
      exact h.package
    · rw [hname]
      rintro name ⟨⟩
      exact hs.isIdentifier hsound hk
  · intro i hi
    rcases List.mem_append.mp (himports ▸ hi) with hi | hi
    · exact h.imports i hi
    · exact recordedImports_all hs.matched (readImport_written hs hsound) t o i hi
  · intro d hd
    rcases List.mem_append.mp (htypes ▸ hd) with hd | hd
    · exact h.types d hd
    · exact recordedTypes_all hs.matched (readTypeSpec_writable hs hsound hp) t o d hd
  · intro l hl
    rcases List.mem_append.mp (hliterals ▸ hl) with hl | hl
    · exact h.literals l hl
    · exact recorded_writable hs hsound hp t o l hl

theorem IsWritable.run {o : Outline} (h : o.IsWritable) (fuel : Nat) : (run s fuel o).IsWritable := by
  induction fuel generalizing o with
  | zero => exact h
  | succ fuel ih =>
    unfold Outline.run
    split
    · exact ih (h.step hs hsound hp _)
    · exact h

end

end Outline

/-! ## Files -/

/-- A file without problems whose lengths are plain, and whose imports suggest names for their packages. -/
structure SourceFile.IsReadable (f : SourceFile) : Prop where
  parsed : ∃ text, f = parse text
  clean : f.diagnostics = []
  declared : ∀ d ∈ f.types, d.type.HasPlainLengths
  literal : ∀ l ∈ f.literals, l.type.HasPlainLengths
  imported : ∀ i ∈ f.imports, IsIdentifier i.defaultName.toList

/-- What is to be checked of a file that was parsed. -/
def SourceFile.IsTidy (f : SourceFile) : Prop :=
  f.diagnostics = [] ∧ (∀ d ∈ f.types, d.type.HasPlainLengths) ∧ (∀ l ∈ f.literals, l.type.HasPlainLengths) ∧
    ∀ i ∈ f.imports, IsIdentifier i.defaultName.toList

instance (f : SourceFile) : Decidable f.IsTidy :=
  inferInstanceAs (Decidable (f.diagnostics = [] ∧ (∀ d ∈ f.types, d.type.HasPlainLengths) ∧
    (∀ l ∈ f.literals, l.type.HasPlainLengths) ∧ ∀ i ∈ f.imports, IsIdentifier i.defaultName.toList))

theorem SourceFile.isReadable_iff {f : SourceFile} : f.IsReadable ↔ (∃ text, f = parse text) ∧ f.IsTidy :=
  ⟨fun h => ⟨h.parsed, h.clean, h.declared, h.literal, h.imported⟩,
    fun ⟨hparsed, hclean, hdeclared, hliteral, himported⟩ => ⟨hparsed, hclean, hdeclared, hliteral, himported⟩⟩

/-- A declared type that can be written, and its names as well. -/
structure TypeDecl.IsWritten (d : TypeDecl) : Prop where
  name : IsIdentifier d.name.toList
  params : ∀ param ∈ d.params, IsIdentifier param.toList
  type : d.type.IsWritten

/-- A file whose names are names, and whose types can be written. -/
structure SourceFile.IsWritten (f : SourceFile) : Prop where
  package : ∀ name ∈ f.package, IsIdentifier name.toList
  imports : ∀ i ∈ f.imports, i.IsWritten ∧ IsIdentifier i.defaultName.toList
  types : ∀ d ∈ f.types, d.IsWritten
  literals : ∀ l ∈ f.literals, l.type.IsWritten

/-- What a file without problems declares can be written. -/
theorem SourceFile.IsReadable.isWritten {f : SourceFile} (h : f.IsReadable) : f.IsWritten := by
  obtain ⟨⟨text, rfl⟩, hclean, hdeclared, hliteral, himported⟩ := h
  have hlexed := ofText_eq_nil hclean
  have hsound : ∀ m ∈ lexemes text, m.isSound := isSound_of_diagnostics (List.append_eq_nil_iff.mp hlexed).1
  have hstart : (Outline.start (Lexed.ofText text).2).IsWritable :=
    ⟨nofun, by simp [Outline.start], by simp [Outline.start], by simp [Outline.start]⟩
  have hrun := hstart.run (Lexed.isRead_ofText text) hsound (Lexed.isPaired_ofText hlexed) (Lexed.ofText text).1.size
  refine ⟨hrun.package, fun i hi => ⟨hrun.imports i hi, himported i hi⟩, fun d hd => ?_, fun l hl => ?_⟩
  · have hd' := hrun.types d hd
    exact ⟨hd'.name, hd'.params, hd'.type (hdeclared d hd)⟩
  · exact hrun.literals l hl (hliteral l hl)

end LiteralFill
