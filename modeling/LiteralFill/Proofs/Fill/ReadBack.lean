import LiteralFill.Proofs.Fill.Again
import LiteralFill.Proofs.Fill.Imports
import LiteralFill.Proofs.Fill.Spelling
import LiteralFill.Proofs.Fill.StaleCopy

/-!
What a filled text says. The resolver finds types that can be written, so all that is rendered is read again: where
the literal stood there is a literal of the same type, with a key and a value for each entry. The values are the
texts that stood in the literal before, and the zero values as they were rendered.
-/

namespace LiteralFill

open Resolution (Grows)

/-! ## How an edit comes about -/

section

variable {resolve : StructResolver} {r : FillRequest} {options : FillOptions} {s s' : Session}

/-- Between two sessions the struct of a literal is found, and the elements are set against its fields. -/
def CompositeLiteral.MergesTo (resolve : StructResolver) (r : FillRequest) (options : FillOptions)
    (l : CompositeLiteral) (s s' : Session) (resolved : ResolvedStruct) (merged : Merged) : Prop :=
  ∃ s₀ s₁, s.packages.GrowsTo s₀.packages ∧
    resolve ⟨r.file, r.path, r.packagePath, l.lbrace⟩ l.type s₀ = (.ok resolved, s₁) ∧
    (merge r.file l resolved (options.synthesizer r) s₁).1 = .ok (some merged) ∧
    s₁.packages.GrowsTo s'.packages

theorem CompositeLiteral.MergesTo.mono {l : CompositeLiteral} {resolved : ResolvedStruct} {merged : Merged}
    {a b : Session} (h : l.MergesTo resolve r options s s' resolved merged) (ha : a.packages.GrowsTo s.packages)
    (hb : s'.packages.GrowsTo b.packages) : l.MergesTo resolve r options a b resolved merged := by
  obtain ⟨s₀, s₁, hbefore, hresolved, hmerged, hbehind⟩ := h
  exact ⟨s₀, s₁, ha.trans hbefore, hresolved, hmerged, hbehind.trans hb⟩

theorem fillLiteral_mergesTo {l : CompositeLiteral} {edit : TextEdit} {paths : PathSet}
    (h : fillLiteral resolve r options l s = (.edited edit paths, s')) :
    ∃ resolved merged, l.MergesTo resolve r options s s' resolved merged ∧ edit = mergedEdit r options (l, merged) := by
  unfold fillLiteral at h
  have hpoll := s.poll_packages
  split at h
  · cases h
  · next s₀ hs =>
    rw [hs] at hpoll
    split at h
    · next e s₁ _ =>
      have hunfilled := onResolveError_unfilled (r := r) (l := l) e
      rw [(Prod.mk.inj h).1] at hunfilled
      exact absurd rfl (hunfilled _)
    · next resolved s₁ hresolved =>
      have hsame := fillResolved_packages r options l resolved s₁
      rw [fillResolved_eq] at h hsame
      obtain ⟨houtcome, rfl⟩ := Prod.mk.inj h
      rcases hmerged : (merge r.file l resolved (options.synthesizer r) s₁).1 with e | _ | merged <;>
        rw [hmerged] at houtcome <;> cases houtcome
      refine ⟨resolved, merged, ⟨s₀, s₁, ?_, hresolved, hmerged, ?_⟩, rfl⟩
      · rw [← hpoll]
        exact .refl _
      · rw [hsame]
        exact .refl _

variable (hresolve : ∀ scope type, Grows (resolve scope type))
include hresolve

theorem fillLiterals_mergesTo {literals : List CompositeLiteral} {edits : List TextEdit} {paths : PathSet}
    (h : fillLiterals resolve r options literals s = (.edited edits paths, s')) : ∀ edit ∈ edits, ∃ l ∈ literals,
      ∃ resolved merged, l.MergesTo resolve r options s s' resolved merged ∧ edit = mergedEdit r options (l, merged) := by
  induction literals generalizing s edits paths with
  | nil =>
    cases h
    simp
  | cons literal rest ih =>
    have hfirst := fillLiteral_packages hresolve r options literal s
    rw [fillLiterals] at h
    split at h
    · cases h
    · next s₁ hleft =>
      rw [hleft] at hfirst
      intro edit hedit
      obtain ⟨l, hl, resolved, merged, hmerges, hrendered⟩ := ih h edit hedit
      exact ⟨l, List.mem_cons_of_mem literal hl, resolved, merged, hmerges.mono hfirst (.refl _), hrendered⟩
    · next first found s₁ hedited =>
      rw [hedited] at hfirst
      have hrest := fillLiterals_packages hresolve r options rest s₁
      split at h
      · next edits' more s₂ hmore =>
        cases h
        rw [hmore] at hrest
        intro edit hedit
        rcases List.mem_cons.mp hedit with rfl | hedit
        · obtain ⟨resolved, merged, hmerges, hrendered⟩ := fillLiteral_mergesTo hedited
          exact ⟨literal, List.mem_cons_self, resolved, merged, hmerges.mono (.refl _) hrest, hrendered⟩
        · obtain ⟨l, hl, resolved, merged, hmerges, hrendered⟩ := ih hmore edit hedit
          exact ⟨l, List.mem_cons_of_mem literal hl, resolved, merged, hmerges.mono hfirst (.refl _), hrendered⟩
      · cases h

/-- An edit of a request is the text of a literal of its file that was set against its struct. -/
theorem fill_mergesTo (hfile : ∃ text, r.file = .parse text) {output : FillOutput}
    (h : fill resolve r options s = (.filled output, s')) : ∀ edit ∈ output.edits, ∃ l ∈ r.file.literals,
      ∃ resolved merged, l.MergesTo resolve r options s s' resolved merged ∧ edit = mergedEdit r options (l, merged) := by
  obtain ⟨literals, edits, paths, s₁, hlocate, hliterals, -, rfl, rfl⟩ := fill_eq_filled h
  obtain ⟨text, htext⟩ := hfile
  rw [htext] at hlocate
  intro edit hedit
  obtain ⟨l, hl, resolved, merged, hmerges, hrendered⟩ :=
    fillLiterals_mergesTo hresolve hliterals edit ((List.mergeSort_perm _ _).mem_iff.mp hedit)
  refine ⟨l, htext ▸ (SourceFile.locate_apart hlocate).1 l hl, resolved, merged, hmerges.mono (.refl _) ?_, hrendered⟩
  rw [Session.foldl_forward_packages]
  exact .refl _

end

/-! ## What is read of a filled literal -/

/-- A literal without comments. -/
structure CompositeLiteral.IsBare (l : CompositeLiteral) : Prop where
  leading : ∀ e ∈ l.elements, e.leading = []
  trailing : ∀ e ∈ l.elements, e.trailing = none
  dangling : l.dangling = []

theorem CompositeLiteral.IsBare.hasNotes {l : CompositeLiteral} (h : l.IsBare) : l.HasNotes := by
  refine ⟨fun e he c hc => ?_, fun e he t ht => ?_, fun c hc => ?_⟩
  · rw [h.leading e he] at hc
    cases hc
  · rw [h.trailing e he] at ht
    cases ht
  · rw [h.dangling] at hc
    cases hc

/-- The text of the zero value of a type in a line with this indentation. -/
def Synthesizer.zeroText (z : Synthesizer) (layout : Layout) (indent : String) (t : Ty) : String :=
  renderZero layout.indent.unit layout.align indent (z.synthesize t).1

/-- The element of a text `text'` has the name of the field at a place as its key. Its value is byte for byte the one
of the element that sets the field in the literal of the text `text`, or the zero value of the field if no element
does. -/
inductive Element.Restates (text text' : List Char) (l : CompositeLiteral) (fields : List (Field Ty))
    (zeroText : Ty → String) : Field Ty × Nat → Element → Prop
  | supplied {f : Field Ty} {i : Nat} {e e' : Element} (hkey : e'.IsNamed f.name) (hset : l.Sets fields i e)
      (hvalue : slice text' e'.value = slice text e.value) : Restates text text' l fields zeroText (f, i) e'
  | zero {f : Field Ty} {i : Nat} {e' : Element} (hkey : e'.IsNamed f.name) (hnone : ∀ e, ¬ l.Sets fields i e)
      (hvalue : slice text' e'.value = (zeroText f.type).toList) : Restates text text' l fields zeroText (f, i) e'

variable {text text' : List Char} {l : CompositeLiteral}

/-- An element that is read of the row of an entry says what the entry is of. -/
theorem MergedEntry.IsOf.restates {z : Synthesizer}
    {fields : List (Field Ty)} {p : Field Ty × Nat} {e : MergedEntry} (h : e.IsOf (.parse text) z l fields p)
    {layout : Layout} {indent : String} {e' : Element} (hread : (entryRow layout indent e).IsRead text' e') :
    e'.Restates text text' l fields (z.zeroText layout indent) p := by
  have hkey := hread.key
  have hvalue := hread.value
  cases h with
  | supplied hset =>
    refine .supplied hkey hset (hvalue.trans ?_)
    exact String.toList_ofList
  | zero hnone => exact .zero hkey hnone hvalue

theorem restates_of_read {z : Synthesizer} {fields : List (Field Ty)} {set : List (Field Ty × Nat)}
    {entries : List MergedEntry} {elements : List Element} {layout : Layout} {indent : String}
    (hentries : List.Forall₂ (MergedEntry.IsOf (.parse text) z l fields) set entries)
    (hread : List.Forall₂ (fun e e' => (entryRow layout indent e).IsRead text' e') entries elements) :
    List.Forall₂ (Element.Restates text text' l fields (z.zeroText layout indent)) set elements := by
  induction hentries generalizing elements with
  | nil =>
    cases hread
    exact .nil
  | cons hfirst _ ih =>
    cases hread with
    | cons hsay hrest => exact .cons (hfirst.restates hsay) (ih hrest)

/-- A literal keeps the text of its type when its braces are replaced. -/
theorem slice_typeSpan_replaced (hclean : (Lexed.ofText text).2 = []) (hl : l ∈ (SourceFile.parse text).literals)
    (new : String) : slice (replaceSpan text ⟨l.braceSpan, new⟩) l.typeSpan = slice text l.typeSpan := by
  obtain ⟨A, B, C, hbraced⟩ := exists_isBraced hclean hl
  obtain ⟨i, lb, rb, h⟩ := SourceFile.exists_standsAt hl
  have hs := Lexed.isRead_ofText text
  have hlt := h.first_lt hs.matched
  obtain ⟨hbraces, hsize, -⟩ := h.closer hs.matched
  obtain ⟨before, rfl⟩ := Nat.exists_eq_add_of_le' (Nat.lt_of_le_of_lt (Nat.zero_le i) hlt)
  have hbound : IsBoundary text l.typeSpan.start := h.start_eq ▸ hs.boundary (by omega)
  have hstop : l.typeSpan.stop = (Lexed.ofText text).1.stopAt before := h.stop_eq
  have horder : l.typeSpan.start ≤ l.typeSpan.stop := by
    rw [h.start_eq, hstop]
    exact Nat.le_trans (Lexed.start_le_stop (by omega)) (hs.stop_le_stop (by omega) (by omega))
  have hend : l.typeSpan.stop ≤ byteLength (lexemesText A) := by
    rw [hstop, hbraced.lbrace, h.lbrace_eq]
    exact hs.stop_le_start (Nat.lt_succ_self before) (by omega)
  rw [hbraced.replaceSpan_eq]
  conv_rhs => rw [hbraced.text_eq]
  rw [hbraced.text_eq] at hbound
  exact slice_append _ hbound horder hend

/-! ## The text after the edits -/

/-- The text of the zero values in the lines of a literal that a request fills. -/
def zeroTextIn (r : FillRequest) (options : FillOptions) (l : CompositeLiteral) : Ty → String :=
  (options.synthesizer r).zeroText options.layout
    (String.ofList (indentAt r.file.text l.lbrace) ++ options.layout.indent.unit)

/-- A literal of the text `text'` stands where a literal of the text `text` stood: its opening brace has the same
place and its type the same text. Its elements restate these fields, one for one. -/
structure CompositeLiteral.StandsFor (text' text : List Char) (l' l : CompositeLiteral) (fields : List (Field Ty))
    (set : List (Field Ty × Nat)) (zeroText : Ty → String) : Prop where
  lbrace : l'.lbrace = l.lbrace
  type : slice text' l'.typeSpan = slice text l.typeSpan
  elements : List.Forall₂ (Element.Restates text text' l fields zeroText) set l'.elements

/-- The filled text reads back as what was merged. Where a literal without comments was filled, the new text has a
literal with its opening brace at the same place and a type with the same text. Its elements have the names of the
merged entries as their keys, one for one and in the order of the declaration; their values are those of the elements
that set the fields before, and the zero values of the others. All files that were read are free of problems, their
lengths hold no comment and no line break, and the names of imported packages are names. -/
theorem fill_readsBack {tree : FileTree} {r : FillRequest} {options : FillOptions} {s s' : Session}
    {output : FillOutput} {l : CompositeLiteral} (hfile : r.file.IsReadable) (hl : l ∈ r.file.literals)
    (hbare : l.IsBare) (hfill : fill (resolveStruct tree) r options s = (.filled output, s'))
    (hone : output.edits.map (·.span) = [l.braceSpan]) (hread : s'.packages.IsReadable) :
    ∃ resolved merged, l.MergesTo (resolveStruct tree) r options s s' resolved merged ∧
      output.edits = [mergedEdit r options (l, merged)] ∧
      ∃ set : List (Field Ty × Nat), set.Sublist resolved.fields.zipIdx ∧
        set.map (·.1.name) = merged.entries.map (·.name) ∧
        ∃ l' ∈ (SourceFile.parse (applyEdits r.file.text output.edits)).literals,
          l'.StandsFor (applyEdits r.file.text output.edits) r.file.text l resolved.fields set
            (zeroTextIn r options l) := by
  -- the edit is the one of the literal
  obtain ⟨edit, hedits, hspan⟩ := List.map_eq_singleton_iff.mp hone
  obtain ⟨m, hm, resolved, merged, hmerges, hrendered⟩ :=
    fill_mergesTo (grows_resolveStruct tree) hfile.parsed hfill edit (by rw [hedits]; exact List.mem_singleton_self edit)
  obtain ⟨file, path, packagePath, target⟩ := r
  obtain ⟨text, rfl⟩ := hfile.parsed
  have hbraces : l.braceSpan = m.braceSpan := by rw [← hspan, hrendered, mergedEdit]
  obtain rfl : l = m := SourceFile.eq_of_braceSpan hl hm hbraces
  refine ⟨resolved, merged, hmerges, by rw [hedits, hrendered], ?_⟩
  -- what is merged can be written
  obtain ⟨s₀, s₁, -, hresolved, hmerged, hbehind⟩ := hmerges
  have hfound : Resolution.Answers s'.packages (resolveStruct tree ⟨.parse text, path, packagePath, l.lbrace⟩ l.type)
      (·.IsWritten ((SourceFile.parse text).qualifier packagePath)) :=
    answers_resolveStruct hread hfile (hfile.isWritten.literals l hl)
  have hwritten := hfound.step hresolved hbehind
  have hlexed := SourceFile.ofText_eq_nil hfile.clean
  have hbase : ∀ c ∈ (String.ofList (indentAt text l.lbrace)).toList, isLineBlank c := by
    rw [String.toList_ofList]
    exact isLineBlank_indentAt text l.lbrace
  have hindent : ∀ c ∈ (String.ofList (indentAt text l.lbrace) ++ options.layout.indent.unit).toList, isLineBlank c := by
    simpa [or_imp, forall_and] using ⟨isLineBlank_indentAt text l.lbrace, isLineBlank_unit options.layout.indent⟩
  have hsound : merged.IsSound options.layout _ := merge_isSound hlexed hl hbare.hasNotes hwritten hmerged hindent
  obtain ⟨-, set, hset, -, hentries⟩ := merge_isOf hmerged
  -- the new text and the literal in it
  have htext' : applyEdits text output.edits =
      replaceSpan text ⟨l.braceSpan, render merged (String.ofList (indentAt text l.lbrace)) options.layout⟩ := by
    rw [hedits, applyEdits_one, hrendered]
    rfl
  obtain ⟨l', hl', -, htype, hlbrace, -, helements, -⟩ := finds_rendered hlexed hl hbase hsound htext'
  refine ⟨set, hset, ?_, l', hl', hlbrace, ?_, restates_of_read hentries helements⟩
  · rw [← List.forall₂_eq_eq_eq, List.forall₂_map_left_iff, List.forall₂_map_right_iff]
    exact hentries.imp fun p e he => he.name.symm
  · show slice (applyEdits text output.edits) _ = _
    rw [htype, htext']
    exact slice_typeSpan_replaced hlexed hl _

/-! ## Memories from a tree -/

theorem Package.FromTree.parsed {tree : FileTree} {p : Package} (h : p.FromTree tree) {f : PackageFile}
    (hf : f ∈ p.files) : ∃ text, f.source = .parse text := by
  rcases List.mem_append.mp (h.mem_sources hf) with hsource | hsource
  · obtain ⟨text, htext, -⟩ := tree.sources_fit hsource
    exact ⟨text, htext⟩
  · obtain ⟨text, htext, -⟩ := standardSources_fit hsource
    exact ⟨text, htext⟩

/-- Files of a tree that are remembered without having been imported are readable if they are tidy. -/
theorem PackageDb.FromTree.isReadable {tree : FileTree} {db : PackageDb} (h : db.FromTree tree)
    (hnone : db.byPath.isEmpty) (htidy : ∀ e ∈ db.byDir, ∀ p ∈ e.2, ∀ f ∈ p.files, f.source.IsTidy) :
    db.IsReadable := by
  have hempty (path : String) : db.byPath.lookup path = none := by rw [List.isEmpty_iff.mp hnone]; rfl
  refine ⟨fun {p} hp f hf => ?_, fun {path p} hp => by simp [hempty] at hp⟩
  rcases hp with ⟨path, hpath⟩ | ⟨dir, hdir⟩
  · simp [hempty] at hpath
  · obtain ⟨e, he, hpackage⟩ := Option.map_eq_some_iff.mp hdir
    have hmem := List.mem_of_find?_eq_some he
    exact SourceFile.isReadable_iff.mpr ⟨(h.byDir e hmem p hpackage).parsed hf, htidy e hmem p hpackage f hf⟩

/-- A package with a struct that has an array with a computed length. -/
def computedTree : FileTree :=
  treeOfCopy "package p\nconst n = 2\ntype T struct \x7b A [n + 1]string; B int; C map[string]*T \x7d\n"

/-- A new file of the package, with a literal that sets one field to a value on two lines. -/
def brokenRequest : FillRequest :=
  ⟨SourceFile.parse "package p\nvar x = T\x7b\n\tB: f(1,\n\t\t2),\n\x7d\n".toList, some ⟨"p/c.go"⟩, "p", .offset 18⟩

/-- The literal is filled and read back. -/
theorem fill_readsBack_broken : ∃ l ∈ brokenRequest.file.literals, brokenRequest.file.IsReadable ∧ l.IsBare ∧
    ∃ output s', fill (resolveStruct computedTree) brokenRequest .standard (.ofPackages .empty) = (.filled output, s') ∧
      output.edits.map (·.span) = [l.braceSpan] ∧ s'.packages.IsReadable ∧
      ∃ resolved merged set, l.MergesTo (resolveStruct computedTree) brokenRequest .standard (.ofPackages .empty) s'
          resolved merged ∧ set.map (·.1.name) = merged.entries.map (·.name) ∧
        ∃ l' ∈ (SourceFile.parse (applyEdits brokenRequest.file.text output.edits)).literals,
          l'.StandsFor (applyEdits brokenRequest.file.text output.edits) brokenRequest.file.text l resolved.fields set
            (zeroTextIn brokenRequest .standard l) := by
  have hchecked : brokenRequest.file.IsTidy ∧ brokenRequest.file.literals.map (fun l => (l.braceSpan,
      l.elements.map (·.leading), l.elements.map (·.trailing), l.dangling)) = [(⟨19, 37⟩, [[]], [none], [])] := by
    decide +kernel
  have hfilled : (fill (resolveStruct computedTree) brokenRequest .standard (.ofPackages .empty)).1 =
      .filled ⟨[⟨⟨19, 37⟩, "\x7b\n\tA: [n + 1]string\x7b\x7d,\n\tB: f(1,\n\t\t2),\n\tC: nil,\n\x7d"⟩], []⟩ := by
    decide +kernel
  have hmemory : (fill (resolveStruct computedTree) brokenRequest .standard (.ofPackages .empty)).2.packages.byPath.isEmpty ∧
      ∀ e ∈ (fill (resolveStruct computedTree) brokenRequest .standard (.ofPackages .empty)).2.packages.byDir,
        ∀ p ∈ e.2, ∀ f ∈ p.files, f.source.IsTidy := by
    decide +kernel
  have hnew : (Session.ofPackages .empty).packages.FromTree computedTree := ⟨nofun, nofun⟩
  have hread := (fill_keeps (fun scope type _ => (resolveStruct_keepsSources computedTree scope type).step)
    brokenRequest .standard hnew).isReadable hmemory.1 hmemory.2
  obtain ⟨htidy, hliterals⟩ := hchecked
  obtain ⟨l, hl, hrest⟩ := List.map_eq_singleton_iff.mp hliterals
  simp only [Prod.mk.injEq] at hrest
  obtain ⟨hbraces, hleading, htrailing, hdangling⟩ := hrest
  have hmem : l ∈ brokenRequest.file.literals := by rw [hl]; simp
  have hfile : brokenRequest.file.IsReadable := SourceFile.isReadable_iff.mpr ⟨⟨_, rfl⟩, htidy⟩
  have hbare : l.IsBare := by
    refine ⟨fun e he => ?_, fun e he => ?_, hdangling⟩
    · have hmem : e.leading ∈ l.elements.map (·.leading) := List.mem_map_of_mem he
      simpa [hleading] using hmem
    · have hmem : e.trailing ∈ l.elements.map (·.trailing) := List.mem_map_of_mem he
      simpa [htrailing] using hmem
  have hfill := Prod.ext (y := (_, _)) hfilled rfl
  obtain ⟨resolved, merged, hmerges, -, set, -, hnames, l', hl', hstands⟩ :=
    fill_readsBack hfile hmem hbare hfill (by rw [hbraces]; rfl) hread
  exact ⟨l, hmem, hfile, hbare, _, _, hfill, by rw [hbraces]; rfl, hread, resolved, merged, set, hmerges, hnames, l',
    hl', hstands⟩

end LiteralFill
