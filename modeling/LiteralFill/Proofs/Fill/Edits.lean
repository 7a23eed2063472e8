import LiteralFill.Proofs.Fill.Forwarding
import LiteralFill.Proofs.Nesting
import Mathlib.Data.List.Pairwise
import Mathlib.Data.List.Sort

/-!
The edits of a request can be applied to its file. Each edit takes the place of the braces of a literal, and
the literals that a request means are apart: an offset or a span means one, and of those on a line that lie in
one another only the outermost are left. The imports of the output are a set in increasing order, of paths
that the file has to import, and they are what is asked for.
-/

namespace LiteralFill

/-! ## Sets of paths -/

namespace PathSet

theorem mem_insert {path p : String} {s : PathSet} : p ∈ insert path s ↔ p = path ∨ p ∈ s := by
  induction s with
  | nil => simp [insert]
  | cons q rest ih =>
    unfold insert
    split
    · simp
    · split
      · next heq => simp [heq]
      · simp [ih, or_left_comm]

theorem insert_sorted {path : String} {s : PathSet} (hs : s.Pairwise (· < ·)) :
    (insert path s).Pairwise (· < ·) := by
  induction s with
  | nil => simp [insert]
  | cons q rest ih =>
    obtain ⟨hq, hrest⟩ := List.pairwise_cons.mp hs
    unfold insert
    split
    · next hlt =>
      refine List.pairwise_cons.mpr ⟨?_, hs⟩
      intro p hp
      rcases List.mem_cons.mp hp with rfl | hp
      · exact hlt
      · exact String.lt_trans hlt (hq p hp)
    · next hnot =>
      split
      · exact hs
      · next hne =>
        refine List.pairwise_cons.mpr ⟨?_, ih hrest⟩
        intro p hp
        rcases mem_insert.mp hp with rfl | hp
        · exact Std.lt_of_le_of_ne hnot (Ne.symm hne)
        · exact hq p hp

theorem mem_union {s t : PathSet} {p : String} : p ∈ union s t ↔ p ∈ s ∨ p ∈ t := by
  unfold union
  induction t generalizing s with
  | nil => simp
  | cons path rest ih =>
    rw [List.foldl_cons, ih, mem_insert, List.mem_cons]
    tauto

theorem mem_ofList {paths : List String} {p : String} : p ∈ ofList paths ↔ p ∈ paths := by
  show p ∈ union [] paths ↔ _
  simp [mem_union]

theorem ofList_sorted (paths : List String) : (ofList paths).Pairwise (· < ·) := by
  have hfold : ∀ s : PathSet, s.Pairwise (· < ·) →
      (paths.foldl (fun s p => insert p s) s).Pairwise (· < ·) := by
    induction paths with
    | nil => exact fun _ hs => hs
    | cons path rest ih => exact fun s hs => ih _ (insert_sorted hs)
  exact hfold [] .nil

end PathSet

namespace SourceFile

/-- A file can name a package that it imports unless the import is blank. -/
theorem canName_iff {f : SourceFile} {path : String} :
    f.canName path = true ↔ ∃ i ∈ f.imports, i.path = path ∧ i.alias? ≠ some "_" := by
  have hname : ∀ i : ImportSpec, (i.isDot || i.localName.isSome) = true ↔ i.alias? ≠ some "_" := by
    intro i
    unfold ImportSpec.isDot ImportSpec.localName
    split
    · simp_all
    · simp_all
    · simp_all
    · simp_all
  simp only [canName, List.any_eq_true, Bool.and_eq_true, beq_iff_eq, hname]

/-- The imports that a file lacks are paths of other packages that it does not import, or only blank. -/
theorem mem_missingImports {f : SourceFile} {package path : String} {paths : List String} :
    path ∈ f.missingImports package paths ↔
      path ∈ paths ∧ path ≠ package ∧ ¬ ∃ i ∈ f.imports, i.path = path ∧ i.alias? ≠ some "_" := by
  rw [missingImports, PathSet.mem_ofList, List.mem_filter, ← canName_iff]
  simp

end SourceFile

/-! ## The literals of a request -/

/-- A span from an opening brace of a text to the end of the brace that closes it. -/
def IsBracePair (text : List Char) (span : Span) : Prop :=
  ∃ i j, (Lexed.ofText text).1.kindAt i = some (.opener .brace) ∧
    (Lexed.ofText text).1.closerOf i = some j ∧
    span = ⟨(Lexed.ofText text).1.startAt i, (Lexed.ofText text).1.stopAt j⟩

/-- The ends of a pair of braces are the brace characters. -/
theorem IsBracePair.slices {text : List Char} {span : Span} (h : IsBracePair text span) :
    slice text ⟨span.start, span.start + 1⟩ = ['\x7b'] ∧
      slice text ⟨span.stop - 1, span.stop⟩ = ['\x7d'] := by
  obtain ⟨i, j, hopen, hclose, rfl⟩ := h
  have hread := Lexed.isRead_ofText text
  obtain ⟨-, -, b, hb, hcloser⟩ := hread.matched.closer_spec hclose
  rw [hopen] at hb
  cases hb
  have hfixed : ∀ e ∈ fixedTokens, (e.2 = .opener .brace → e.1 = ['\x7b']) ∧
      (e.2 = .closer .brace → e.1 = ['\x7d']) := by decide
  have hfirst := hread.slice_bracket hopen rfl
  have hlast := hread.slice_bracket hcloser rfl
  rw [hread.stopAt_bracket hopen rfl] at hfirst
  refine ⟨(hfixed _ hfirst).1 rfl, ?_⟩
  dsimp only
  rw [hread.stopAt_bracket hcloser rfl] at hlast ⊢
  exact (hfixed _ hlast).2 rfl

/-- One span ends where the other starts, or before. -/
def Span.Precedes (a b : Span) : Prop := a.start < b.start ∧ a.stop ≤ b.start

namespace SourceFile

variable {text : List Char} {literals : List CompositeLiteral}

theorem isBracePair_braceSpan {l : CompositeLiteral} (hl : l ∈ (parse text).literals) :
    IsBracePair text l.braceSpan := by
  obtain ⟨i, lb, rb, h⟩ := exists_standsAt hl
  obtain ⟨-, -, hclose⟩ := h.closer (Lexed.isMatched_ofText text)
  refine ⟨lb, rb, h.opens, h.closes, ?_⟩
  rw [(Lexed.isRead_ofText text).stopAt_bracket hclose rfl, ← h.lbrace_eq, ← h.rbrace_eq]
  rfl

/-- The innermost literals around a position are literals of the file. -/
theorem mem_of_literalsAt {offset : Nat} {l : CompositeLiteral} (hl : l ∈ (parse text).literalsAt offset) :
    l ∈ (parse text).literals :=
  (List.mem_filter.mp ((literalsAt_perm text offset).mem_iff.mp hl)).1

theorem literalOfSpan_mem {s : Span} {l : CompositeLiteral} (h : literalOfSpan (parse text) s = some l) :
    l ∈ (parse text).literals := by
  unfold literalOfSpan at h
  split at h
  · next hfind =>
    cases h
    exact (List.mem_filter.mp (List.mem_of_find?_eq_some hfind)).1
  · exact mem_of_literalsAt (List.mem_of_find?_eq_some h)

/-- Of literals in the order of a file the outermost are one behind the other. -/
theorem outermost_apart (hsub : literals.Sublist (parse text).literals) :
    (outermost literals).Pairwise fun l m => l.braceSpan.Precedes m.braceSpan := by
  refine ((nested_parse text).ordered.sublist (List.filter_sublist.trans hsub)).imp_of_mem ?_
  intro l m hl hm hlm
  obtain ⟨hl, -⟩ := List.mem_filter.mp hl
  obtain ⟨hm, houter⟩ := List.mem_filter.mp hm
  obtain ⟨hm₁, hm₂⟩ := start_lt_lbrace (hsub.mem hm)
  obtain ⟨hl₁, hl₂⟩ := start_lt_lbrace (hsub.mem hl)
  obtain ⟨hbrace, hapart | hin⟩ := hlm
  · simp only [Span.Precedes, CompositeLiteral.braceSpan, CompositeLiteral.span] at *
    omega
  · -- the later literal lies in the earlier one, so it was not left
    have hinside : isStrictlyInside m.span l.span = true := by
      have hne : l.span ≠ m.span := fun h => by
        have hlength := hin.length_lt ⟨hl₁, hl₂⟩ ⟨hm₁, hm₂⟩
        rw [h] at hlength
        exact Nat.lt_irrefl _ hlength
      obtain ⟨hstart, hstop⟩ := hin
      simp only [isStrictlyInside, Bool.and_eq_true, decide_eq_true_eq, bne_iff_ne]
      simp only [CompositeLiteral.span] at *
      exact ⟨⟨by omega, by omega⟩, hne⟩
    rw [Bool.not_eq_true', List.any_eq_false] at houter
    exact absurd hinside (houter l hl)

/-- The literals that a request means are literals of the file, one behind the other. -/
theorem locate_apart {target : Target} (h : locate (parse text) target = .ok literals) :
    (∀ l ∈ literals, l ∈ (parse text).literals) ∧
      literals.Pairwise fun l m => l.braceSpan.Precedes m.braceSpan := by
  have hone : ∀ found : Option CompositeLiteral, (∀ l, found = some l → l ∈ (parse text).literals) →
      (∀ l ∈ found.toList, l ∈ (parse text).literals) ∧
        found.toList.Pairwise fun l m => l.braceSpan.Precedes m.braceSpan := by
    intro found hmem
    cases found with
    | none => simp
    | some l => simpa using hmem l rfl
  have hfound : ∀ found : List CompositeLiteral, (if found.isEmpty then
      Except.error (FillError.noLiteral (targetSpan (parse text) target)) else .ok found) = .ok literals →
      found = literals := by
    intro found hok
    split at hok
    · cases hok
    · exact Except.ok.inj hok
  rw [← hfound _ h]
  cases target with
  | offset n => exact hone _ fun l hl => mem_of_literalsAt (List.mem_of_find?_eq_some hl)
  | span s => exact hone _ fun l hl => literalOfSpan_mem hl
  | line n =>
    show (∀ l ∈ literalsOnLine _ n, _) ∧ (literalsOnLine _ n).Pairwise _
    unfold literalsOnLine structLiterals
    split
    · simp
    · refine ⟨fun l hl => ?_, outermost_apart (List.filter_sublist.trans List.filter_sublist)⟩
      exact (List.mem_filter.mp (List.mem_filter.mp (List.mem_filter.mp hl).1).1).1

end SourceFile

/-! ## The edits of a request -/

/-- A literal that is filled has an edit in the place of its braces, and one that ends the request ends it
without an output. -/
def LiteralOutcome.FitsIn (literal : CompositeLiteral) : LiteralOutcome → Prop
  | .edited edit _ => edit.span = literal.braceSpan
  | .leftAlone => True
  | .stopped outcome => ∀ output, outcome ≠ .filled output

theorem onResolveError_fitsIn (r : FillRequest) (literal : CompositeLiteral) (e : ResolveError) :
    (onResolveError r literal e).FitsIn literal := by
  cases e with
  | notAStruct name underlying =>
    unfold onResolveError
    dsimp only
    split <;> simp [LiteralOutcome.FitsIn]
  | _ => simp [onResolveError, LiteralOutcome.FitsIn]

section

variable {resolve : StructResolver} {r : FillRequest} {options : FillOptions} {s s' : Session}

theorem fillLiteral_fitsIn {literal : CompositeLiteral} {outcome : LiteralOutcome}
    (h : fillLiteral resolve r options literal s = (outcome, s')) : outcome.FitsIn literal := by
  unfold fillLiteral at h
  split at h
  · cases h
    simp [LiteralOutcome.FitsIn]
  · split at h
    · next e _ _ =>
      rw [← (Prod.mk.inj h).1]
      exact onResolveError_fitsIn r literal e
    · unfold fillResolved at h
      split at h <;> cases h <;> simp [LiteralOutcome.FitsIn]

variable {literals : List CompositeLiteral}

/-- The edits of some literals stand in their order. -/
theorem fillLiterals_spans {edits : List TextEdit} {paths : PathSet}
    (h : fillLiterals resolve r options literals s = (.edited edits paths, s')) :
    (edits.map (·.span)).Sublist (literals.map (·.braceSpan)) := by
  induction literals generalizing s edits paths with
  | nil =>
    cases h
    exact .slnil
  | cons literal rest ih =>
    rw [fillLiterals] at h
    split at h
    · cases h
    · exact (ih h).cons _
    · next hedited =>
      have hspan := fillLiteral_fitsIn hedited
      split at h
      · next hrest =>
        cases h
        rw [List.map_cons, List.map_cons, hspan]
        exact (ih hrest).cons_cons _
      · cases h

/-- Literals end a request without an output. -/
theorem fillLiterals_stopped {outcome : FillOutcome}
    (h : fillLiterals resolve r options literals s = (.stopped outcome, s')) (output : FillOutput) :
    outcome ≠ .filled output := by
  induction literals generalizing s with
  | nil => cases h
  | cons literal rest ih =>
    rw [fillLiterals] at h
    split at h
    · next hstopped =>
      cases h
      exact fillLiteral_fitsIn hstopped output
    · exact ih h
    · split at h
      · cases h
      · next hrest =>
        cases h
        exact ih hrest

/-- What a request that succeeds is made of: the literals it means, and their edits, of which there is one at
least. -/
theorem fill_eq_filled {output : FillOutput} (h : fill resolve r options s = (.filled output, s')) :
    ∃ literals edits paths s₁, locate r.file r.target = .ok literals ∧
      fillLiterals resolve r options literals s = (.edited edits paths, s₁) ∧ edits ≠ [] ∧
      output = ⟨sortEdits edits, r.file.missingImports r.packagePath paths⟩ ∧
      s' = output.imports.foldl Session.forward s₁ := by
  unfold fill at h
  split at h
  · cases h
  · next literals hlocate =>
    split at h
    · next outcome s₁ hliterals =>
      exact absurd (Prod.mk.inj h).1 (fillLiterals_stopped hliterals output)
    · cases h
    · next edits paths s₁ hne hliterals =>
      cases h
      exact ⟨literals, edits, paths, s₁, hlocate, hliterals, hne, rfl, rfl⟩

end

/-- The edits of a request that succeeds are the braces of literals, one behind the other, and its imports are
those that the file lacks, in increasing order and as they were asked for. The resolver asks for no import. -/
theorem fill_applicable {text : List Char} {path : Option Path} {packagePath : String} {target : Target}
    {resolve : StructResolver} {options : FillOptions} {s s' : Session} {output : FillOutput}
    (hresolve : ∀ scope type, (resolve scope type).AsksNothing)
    (h : fill resolve ⟨.parse text, path, packagePath, target⟩ options s = (.filled output, s')) :
    output.edits ≠ [] ∧
    output.edits.Pairwise (fun a b => a.span.Precedes b.span) ∧
    (∀ edit ∈ output.edits, IsBracePair text edit.span) ∧
    output.imports.Pairwise (· < ·) ∧
    (∀ p ∈ output.imports,
      p ≠ packagePath ∧ ¬ ∃ i ∈ (SourceFile.parse text).imports, i.path = p ∧ i.alias? ≠ some "_") ∧
    s'.forwarded = s.forwarded ++ output.imports := by
  obtain ⟨literals, edits, paths, s₁, hlocate, hliterals, hne, rfl, rfl⟩ := fill_eq_filled h
  obtain ⟨hmem, hapart⟩ := SourceFile.locate_apart hlocate
  have hspans := fillLiterals_spans hliterals
  have hordered : edits.Pairwise fun a b => a.span.Precedes b.span :=
    List.pairwise_map.mp ((List.pairwise_map.mpr hapart).sublist hspans)
  -- the edits are in order already
  have hsorted : sortEdits edits = edits :=
    List.mergeSort_of_pairwise (hordered.imp fun hab => decide_eq_true (Nat.le_of_lt hab.1))
  simp only [hsorted]
  refine ⟨hne, hordered, ?_, PathSet.ofList_sorted _, ?_, ?_⟩
  · intro edit hedit
    obtain ⟨literal, hliteral, hspan⟩ := List.mem_map.mp (hspans.mem (List.mem_map_of_mem hedit))
    rw [← hspan]
    exact SourceFile.isBracePair_braceSpan (hmem literal hliteral)
  · intro p hp
    exact (SourceFile.mem_missingImports.mp hp).2
  · have hquiet := fillLiterals_forwarded hresolve ⟨.parse text, path, packagePath, target⟩ options literals s
    rw [hliterals] at hquiet
    rw [Session.foldl_forward_forwarded, hquiet]

/-- A literal with another one on the same line between its braces, in a file that imports the package of a
field only for its effects. -/
def nestedText : List Char :=
  "package p\nimport _ \"q\"\ntype T struct \x7b A q.U; B []T \x7d\nvar x = T\x7bB: []T\x7bT\x7b\x7d\x7d\x7d".toList

/-- On the line of the two literals only the outer one is filled, and the import is asked for. -/
theorem fill_applicable_nested :
    (∀ scope type, (resolveStruct default scope type).AsksNothing) ∧
    ∃ output s', fill (resolveStruct default) ⟨.parse nestedText, none, "p", .line 4⟩ .standard default =
        (.filled output, s') ∧
      output.edits.map (·.span) = [⟨63, 76⟩] ∧ (∀ edit ∈ output.edits, IsBracePair nestedText edit.span) ∧
      s'.forwarded = ["q"] := by
  obtain ⟨output, s', hfill, hspans⟩ : ∃ output s',
      fill (resolveStruct default) ⟨.parse nestedText, none, "p", .line 4⟩ .standard default =
        (.filled output, s') ∧ output.edits.map (·.span) = [⟨63, 76⟩] ∧ output.imports = ["q"] := by
    have hedit : (fill (resolveStruct default) ⟨.parse nestedText, none, "p", .line 4⟩ .standard default).1 =
        .filled ⟨[⟨⟨63, 76⟩, "\x7b\n\tA: q.U\x7b\x7d,\n\tB: []T\x7bT\x7b\x7d\x7d,\n\x7d"⟩], ["q"]⟩ := by
      decide +kernel
    generalize fill _ _ _ _ = p at hedit ⊢
    obtain ⟨outcome, s'⟩ := p
    cases hedit
    exact ⟨_, _, rfl, rfl, rfl⟩
  obtain ⟨-, -, hbraces, -, -, hforwarded⟩ :=
    fill_applicable (asksNothing_resolveStruct default) hfill
  refine ⟨asksNothing_resolveStruct default, output, s', hfill, hspans.1, hbraces, ?_⟩
  rw [hforwarded, hspans.2]
  rfl

end LiteralFill
