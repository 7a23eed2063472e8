import LiteralFill.Proofs.Filled.Entries
import LiteralFill.Proofs.LineNumbers

/-!
Filling a literal again. The second time every field has its element, so nothing is left to be added and the lines
come out as they were: unless two fields have one name, as blank fields do. Then the key of the second one sets the
field of the first again, and the literal that was filled is refused.
-/

namespace LiteralFill

/-! ## Elements for all fields -/

section

variable {fields : List (Field Ty)} {typeText : String}

/-- The element has a name as its key. -/
def Element.IsNamed (name : String) (e : Element) : Prop := ∃ span, e.key = some ⟨name, span, true⟩

/-- Keyed elements set fields when each has one, and no two have the same. -/
theorem matchKeyed_eq_ok {indices : List Nat} {elements : List Element}
    (h : List.Forall₂ (fun i e => ∃ name, e.IsNamed name ∧ (fields.findIdx? fun f => f.name == name) = some i)
      indices elements) {seen supplied : List (Nat × Element)} (hseen : (seen.map (·.1)).Nodup) :
    matchKeyed fields typeText seen elements = .ok supplied ↔
      (seen.map (·.1) ++ indices).Nodup ∧ supplied = seen ++ indices.zip elements := by
  induction h generalizing seen with
  | nil => simp [matchKeyed, hseen, eq_comm]
  | @cons i e indices elements hfirst _ ih =>
    obtain ⟨name, ⟨span, hkey⟩, hindex⟩ := hfirst
    have hfield : fieldIndex fields ⟨name, span, true⟩ = some i := hindex
    rw [matchKeyed, hkey]
    dsimp only
    rw [hfield]
    dsimp only
    by_cases hmem : i ∈ seen.map (·.1)
    · have hset : (seen.lookup i).isSome := by
        obtain ⟨p, hp, rfl⟩ := List.mem_map.mp hmem
        rw [← Bool.not_eq_false, Option.isSome_eq_false_iff, Option.isNone_iff_eq_none, List.lookup_eq_none_iff]
        exact fun hnone => by simpa using hnone p hp
      rw [if_pos hset]
      refine ⟨by simp, fun hnodup => ?_⟩
      rw [List.nodup_append] at hnodup
      exact absurd rfl (hnodup.1.2.2 i hmem i (by simp))
    · have hset : ¬ (seen.lookup i).isSome := by
        rw [Bool.not_eq_true, Option.isSome_eq_false_iff, Option.isNone_iff_eq_none, List.lookup_eq_none_iff]
        exact fun p hp => by
          rw [bne_iff_ne, ne_eq]
          rintro rfl
          exact hmem (List.mem_map.mpr ⟨p, hp, rfl⟩)
      have hnodup : ((seen ++ [(i, e)]).map (·.1)).Nodup := by
        simp only [List.map_append, List.map_cons, List.map_nil, List.nodup_append, List.mem_singleton,
          List.nodup_singleton]
        exact ⟨hseen, trivial, fun a ha b hb => by rintro rfl; exact hmem (hb ▸ ha)⟩
      rw [if_neg hset, ih hnodup]
      simp

/-- The places of names in a list of names are all of its places when no two names are equal. -/
theorem map_idxOf_nodup {names : List String} :
    (names.map fun n => names.idxOf n).Nodup ↔ names.Nodup := by
  constructor
  · exact fun h => h.of_map
  · intro h
    rw [List.nodup_map_iff_inj_on h]
    exact fun n hn m _ hnm => (List.idxOf_inj hn).mp hnm

theorem map_idxOf_eq_range {names : List String} (h : names.Nodup) :
    (names.map fun n => names.idxOf n) = List.range names.length := by
  refine List.ext_getElem (by simp) fun i hi hi' => ?_
  simpa using h.idxOf_getElem i (by simpa using hi)

/-- Elements with the names of the fields, one for each in order, are matched when no two names are equal. -/
theorem matchElements_eq_ok {literal : CompositeLiteral}
    (h : List.Forall₂ (fun (f : Field Ty) (e : Element) => e.IsNamed f.name) fields literal.elements)
    {supplied : List (Nat × Element)} : matchElements fields literal typeText = .ok supplied ↔
      (fields.map (·.name)).Nodup ∧ supplied = (List.range fields.length).zip literal.elements := by
  have hkeyed : literal.elements.countP (·.key.isSome) = literal.elements.length := by
    rw [List.countP_eq_length]
    intro e he
    obtain ⟨f, -, span, hkey⟩ := exists_of_forall₂ h he
    rw [hkey]
    rfl
  unfold matchElements
  dsimp only
  rw [hkeyed, if_neg (by simp)]
  have hlength := h.length_eq
  split
  · next hnone =>
    obtain rfl : fields = [] := List.eq_nil_of_length_eq_zero (hlength.trans hnone)
    rw [List.eq_nil_of_length_eq_zero hnone]
    simp [eq_comm]
  · have hplaces : List.Forall₂ (fun i e => ∃ name, Element.IsNamed name e ∧
        (fields.findIdx? fun f => f.name == name) = some i)
        ((fields.map (·.name)).map fun n => (fields.map (·.name)).idxOf n) literal.elements := by
      rw [List.map_map, List.forall₂_map_left_iff]
      have hmem : List.Forall₂ (fun f (e : Element) => f ∈ fields ∧ e.IsNamed f.name) fields literal.elements :=
        (List.forall₂_and_left fields literal.elements).mpr ⟨fun _ hf => hf, h⟩
      refine hmem.imp fun f e ⟨hf, hnamed⟩ => ⟨f.name, hnamed, ?_⟩
      have hname : f.name ∈ fields.map (·.name) := List.mem_map.mpr ⟨f, hf, rfl⟩
      have hlt := List.idxOf_lt_length_iff.mpr hname
      rw [List.findIdx?_eq_some_iff_findIdx_eq]
      refine ⟨by simpa using hlt, ?_⟩
      show _ = (fields.map (·.name)).idxOf f.name
      rw [List.idxOf, List.findIdx_map]
      rfl
    rw [matchKeyed_eq_ok hplaces (by simp)]
    simp only [List.map_nil, List.nil_append, map_idxOf_nodup]
    refine and_congr_right fun hnodup => ?_
    rw [map_idxOf_eq_range hnodup, List.length_map]

theorem lookup_zip_range' {elements : List Element} (start : Nat) {k : Nat} {e : Element} (h : elements[k]? = some e) :
    ((List.range' start elements.length).zip elements).lookup (start + k) = some e := by
  induction elements generalizing start k with
  | nil => cases h
  | cons e' elements ih =>
    rw [List.length_cons, List.range'_succ, List.zip_cons_cons]
    cases k with
    | zero =>
      obtain rfl : e' = e := by simpa using h
      simp
    | succ k =>
      have hne : (start + (k + 1) == start) = false := by simp
      rw [List.lookup_cons, hne, ← Nat.add_assoc, Nat.add_right_comm]
      exact ih (start + 1) (by simpa using h)

/-- Fields that all have their element get no zero value. -/
theorem mergeFields_all {file : SourceFile} {z : Synthesizer} {samePackage : Bool} {supplied : List (Nat × Element)}
    {index : Nat} {elements : List Element} (hlength : elements.length = fields.length)
    (h : ∀ k e, elements[k]? = some e → supplied.lookup (index + k) = some e) (s : Session) :
    mergeFields file z samePackage supplied index fields s =
      (some ((fields.zip elements).map fun (f, e) => suppliedEntry file f.name e, []), s) := by
  induction fields generalizing index elements with
  | nil => rfl
  | cons f fields ih =>
    obtain ⟨e, elements, rfl⟩ := List.exists_cons_of_length_eq_add_one hlength
    have hfirst : supplied.lookup index = some e := h 0 e rfl
    have hrest : ∀ k e, elements[k]? = some e → supplied.lookup (index + 1 + k) = some e := by
      intro k e' he
      rw [Nat.add_assoc, Nat.add_comm 1]
      exact h (k + 1) e' he
    rw [mergeFields_supplied hfirst, ih (Nat.succ.inj hlength) hrest]
    rfl

/-- A literal that has one element for each field, with its name, is merged when no two names are equal. -/
theorem merge_named {file : SourceFile} {literal : CompositeLiteral} {resolved : ResolvedStruct}
    (h : List.Forall₂ (fun (f : Field Ty) (e : Element) => e.IsNamed f.name) resolved.fields literal.elements)
    (z : Synthesizer) (s : Session) {merged : Merged} :
    (merge file literal resolved z s).1 = .ok (some merged) ↔ (resolved.fields.map (·.name)).Nodup ∧
      merged = ⟨(resolved.fields.zip literal.elements).map fun (f, e) => suppliedEntry file f.name e,
        literal.dangling, []⟩ := by
  by_cases hnodup : (resolved.fields.map (·.name)).Nodup
  · have hmatched : matchElements resolved.fields literal (file.slice literal.typeSpan) =
        .ok ((List.range resolved.fields.length).zip literal.elements) := (matchElements_eq_ok h).mpr ⟨hnodup, rfl⟩
    rw [merge_of_matched hmatched, mergeFields_all h.length_eq.symm fun k e he => ?_]
    · simp [mergedWith, hnodup, eq_comm]
    · rw [Nat.zero_add, h.length_eq, List.range_eq_range']
      have := lookup_zip_range' 0 he
      rwa [Nat.zero_add] at this
  · cases hmatched : matchElements resolved.fields literal (file.slice literal.typeSpan) with
    | ok supplied => exact absurd ((matchElements_eq_ok h).mp hmatched).1 hnodup
    | error e => simp [merge, hmatched, hnodup]

end

/-! ## The lines the second time -/

/-- What is rendered depends on the rows and the comments at the end. -/
theorem render_congr {m m' : Merged} {base : String} {layout : Layout}
    (hrows : m.entries.map (entryRow layout (base ++ layout.indent.unit)) =
      m'.entries.map (entryRow layout (base ++ layout.indent.unit)))
    (hdangling : m.dangling = m'.dangling) : render m base layout = render m' base layout := by
  have hempty : m.entries.isEmpty = m'.entries.isEmpty := by
    have := congrArg List.isEmpty hrows
    simpa using this
  rw [render, render, hempty, hdangling]
  dsimp only
  rw [hrows]

/-- The rows of elements that are read of rows are these rows. -/
theorem rows_eq {text : List Char} {layout : Layout} {indent : String} {fields : List (Field Ty)}
    {entries : List MergedEntry} {elements : List Element}
    (hnames : List.Forall₂ (fun (f : Field Ty) (e : MergedEntry) => e.name = f.name) fields entries)
    (hread : List.Forall₂ (fun e e' => (entryRow layout indent e).IsRead text e') entries elements) :
    ((fields.zip elements).map fun (f, e) => suppliedEntry (.parse text) f.name e).map (entryRow layout indent) =
      entries.map (entryRow layout indent) := by
  induction hnames generalizing elements with
  | nil => rfl
  | @cons f e fields entries hname _ ih =>
    cases hread with
    | @cons _ e' _ elements hfirst hrest =>
      rw [List.zip_cons_cons, List.map_cons, List.map_cons, List.map_cons, ih hrest]
      have hvalue : String.ofList (slice text e'.value) = (entryRow layout indent e).value := by
        rw [hfirst.value, String.ofList_toList]
      have hrow : entryRow layout indent (suppliedEntry (.parse text) f.name e') =
          ⟨e'.leading, f.name, String.ofList (slice text e'.value), e'.trailing⟩ := rfl
      rw [hrow, hvalue, hfirst.leading, hfirst.trailing, ← hname]
      rfl

/-- A field is named by the element that is read of its entry. -/
theorem isNamed_of_read {text : List Char} {layout : Layout} {indent : String} {fields : List (Field Ty)}
    {entries : List MergedEntry} {elements : List Element}
    (hnames : List.Forall₂ (fun (f : Field Ty) (e : MergedEntry) => e.name = f.name) fields entries)
    (hread : List.Forall₂ (fun e e' => (entryRow layout indent e).IsRead text e') entries elements) :
    List.Forall₂ (fun (f : Field Ty) (e : Element) => e.IsNamed f.name) fields elements := by
  induction hnames generalizing elements with
  | nil =>
    cases hread
    exact .nil
  | cons hname _ ih =>
    cases hread with
    | cons hfirst hrest => exact .cons (hname ▸ hfirst.key) (ih hrest)

/-! ## The literal that a position means -/

/-- The literal whose type begins at a position is the innermost one around it. -/
theorem SourceFile.literalsAt_start {text : List Char} {l : CompositeLiteral} (hl : l ∈ (parse text).literals) :
    ∃ outer, (parse text).literalsAt l.typeSpan.start = l :: outer := by
  have hmem : l ∈ (parse text).literalsAt l.typeSpan.start := by
    refine (literalsAt_perm text _).mem_iff.mpr (List.mem_filter.mpr ⟨hl, ?_⟩)
    obtain ⟨h1, h2⟩ := start_lt_lbrace hl
    simp only [Span.contains, Bool.and_eq_true, decide_eq_true_eq]
    simp only [CompositeLiteral.span] at h1 ⊢
    omega
  obtain ⟨inner, outer, hsplit⟩ := List.append_of_mem hmem
  cases inner with
  | nil => exact ⟨outer, hsplit⟩
  | cons m inner =>
    have hchain := literalsAt_chain text l.typeSpan.start
    rw [hsplit, List.cons_append] at hchain
    have hencloses := (List.pairwise_cons.mp hchain).1 l (by simp)
    have hm : m ∈ (parse text).literalsAt l.typeSpan.start := by rw [hsplit]; simp
    have hspan := (List.mem_filter.mp ((literalsAt_perm text _).mem_iff.mp hm)).2
    have hstart := (start_lt_lbrace hl).1
    have hlt := hencloses.1
    simp only [Span.contains, Bool.and_eq_true, decide_eq_true_eq] at hspan
    simp only [CompositeLiteral.span] at hspan hstart hlt
    omega

theorem locate_start {text : List Char} {l : CompositeLiteral} (hl : l ∈ (SourceFile.parse text).literals)
    (hstruct : l.type.mayBeStruct) : locate (.parse text) (.offset l.typeSpan.start) = .ok [l] := by
  obtain ⟨outer, hat⟩ := SourceFile.literalsAt_start hl
  simp [locate, hat, hstruct]

/-! ## The second time -/

/-- The resolver that describes one struct, whatever it is asked for. -/
def described (d : ResolvedStruct) : StructResolver := fun _ _ => .give d

theorem applyEdits_one (text : List Char) (edit : TextEdit) : applyEdits text [edit] = replaceSpan text edit := by
  simp [applyEdits]

/-- Braces are rendered from the opening one on. -/
theorem exists_render_eq (m : Merged) (base : String) (layout : Layout) :
    ∃ body, (render m base layout).toList = '\x7b' :: body := by
  unfold render
  split
  · exact ⟨_, rfl⟩
  · exact ⟨_, by simp only [String.toList_append, List.append_assoc]; rfl⟩

variable {text : List Char} {l : CompositeLiteral}

/-- The text in which a literal of a file is filled has the filled literal at the same place, and it begins with the
same indentation. -/
theorem finds_filled (hclean : (Lexed.ofText text).2 = []) (hl : l ∈ (SourceFile.parse text).literals) {m : Merged}
    {layout : Layout}
    (hm : m.IsSound layout (String.ofList (indentAt text l.lbrace) ++ layout.indent.unit)) {text' : List Char}
    (htext' : text' = replaceSpan text ⟨l.braceSpan, render m (String.ofList (indentAt text l.lbrace)) layout⟩) :
    ∃ l' ∈ (SourceFile.parse text').literals, l'.type = l.type ∧ l'.typeSpan = l.typeSpan ∧
      List.Forall₂ (fun e e' => (entryRow layout (String.ofList (indentAt text l.lbrace) ++ layout.indent.unit) e).IsRead
        text' e') m.entries l'.elements ∧ l'.dangling = m.dangling ∧
      indentAt text' l'.lbrace = indentAt text l.lbrace ∧
      replaceSpan text' ⟨l'.braceSpan, render m (String.ofList (indentAt text l.lbrace)) layout⟩ = text' := by
  obtain ⟨A, B, C, hbraced⟩ := exists_isBraced hclean hl
  have hbase : ∀ c ∈ (String.ofList (indentAt text l.lbrace)).toList, isLineBlank c := by
    rw [String.toList_ofList]
    exact isLineBlank_indentAt text l.lbrace
  obtain ⟨l', hl', htype, hspan, hlbrace, hrbrace, helements, hdangling⟩ := finds_rendered hclean hl hbase hm htext'
  generalize hnew : render m (String.ofList (indentAt text l.lbrace)) layout = new at htext' hrbrace
  rw [hbraced.replaceSpan_eq] at htext'
  refine ⟨l', hl', htype, hspan, helements, hdangling, ?_, ?_⟩
  · obtain ⟨body, hbody⟩ := exists_render_eq m (String.ofList (indentAt text l.lbrace)) layout
    rw [hnew] at hbody
    rw [htext', hbody, hlbrace, ← hbraced.lbrace]
    conv_rhs => rw [hbraced.text_eq]
    exact indentAt_append rfl rfl _ _ _
  · have hstart : l'.lbrace = byteLength (lexemesText A) := by rw [hlbrace, hbraced.lbrace]
    have hstop : l'.braceSpan.stop = byteLength (lexemesText A ++ new.toList) := by
      rw [CompositeLiteral.braceSpan, hrbrace, byteLength_append, hbraced.lbrace]
    rw [replaceSpan, hstop, CompositeLiteral.braceSpan, hstart, htext', takeBytes_byteLength, ← List.append_assoc,
      dropBytes_byteLength]

/-- Filling a filled literal again changes nothing, if and only if no two fields of the struct have one name: the
second of two blank fields is refused as a key that was set before. The struct is one of the package of the file, its
fields can be written there, and the comments of the literal are recorded whole. -/
theorem fill_again (hclean : (SourceFile.parse text).diagnostics = []) (hl : l ∈ (SourceFile.parse text).literals)
    (hstruct : l.type.mayBeStruct) (hnotes : l.HasNotes) {path : Option Path} {d : ResolvedStruct}
    (hwritten : d.IsWritten ((SourceFile.parse text).qualifier d.packagePath)) {options : FillOptions}
    {s s' : Session} {output : FillOutput}
    (hfirst : fill (described d) ⟨.parse text, path, d.packagePath, .offset l.typeSpan.start⟩ options s =
      (.filled output, s')) {again : Session} (hflag : again.poll.1 = false) :
    (∃ output', (fill (described d)
        ⟨.parse (applyEdits text output.edits), path, d.packagePath, .offset l.typeSpan.start⟩ options again).1 =
          .filled output' ∧
        applyEdits (applyEdits text output.edits) output'.edits = applyEdits text output.edits) ↔
      (d.fields.map (·.name)).Nodup := by
  have hlexed := SourceFile.ofText_eq_nil hclean
  obtain ⟨-, resolved, s₁, merged, hresolved, hmerged, rfl⟩ :=
    (fill_one_eq_filled (locate_start hl hstruct)).mp (congrArg Prod.fst hfirst)
  obtain ⟨rfl, rfl⟩ : d = resolved ∧ s.poll.2 = s₁ := by
    cases hresolved
    exact ⟨rfl, rfl⟩
  have hmerged : (merge (.parse text) l d
      (options.synthesizer ⟨.parse text, path, d.packagePath, .offset l.typeSpan.start⟩) s.poll.2).1 = .ok (some merged) :=
    hmerged
  obtain ⟨hdangling, set, -, hset, hentries⟩ := merge_isOf hmerged
  obtain rfl : set = d.fields.zipIdx := hset rfl
  have hbase : ∀ c ∈ (String.ofList (indentAt text l.lbrace) ++ options.layout.indent.unit).toList, isLineBlank c := by
    simpa [or_imp, forall_and] using ⟨isLineBlank_indentAt text l.lbrace, isLineBlank_unit options.layout.indent⟩
  have hsound : merged.IsSound options.layout _ := merge_isSound hlexed hl hnotes hwritten hmerged hbase
  -- the text of the first filling, and the literal in it
  obtain ⟨text', htext'⟩ : ∃ text', text' = applyEdits text (outputOfOne
      ⟨.parse text, path, d.packagePath, .offset l.typeSpan.start⟩ options l merged).edits := ⟨_, rfl⟩
  rw [← htext']
  rw [outputOfOne, applyEdits_one] at htext'
  obtain ⟨l', hl', htype, hspan, hread, hdangling', hindent, hsame⟩ := finds_filled hlexed hl hsound htext'
  have hnames : List.Forall₂ (fun (f : Field Ty) (e : MergedEntry) => e.name = f.name) d.fields merged.entries := by
    rw [← List.zipIdx_map_fst 0 d.fields, List.forall₂_map_left_iff]
    exact hentries.imp fun p e he => he.name
  have hnamed := isNamed_of_read hnames hread
  have hlocate := locate_start hl' (by rw [htype]; exact hstruct)
  rw [← hspan]
  constructor
  · rintro ⟨output, hagain, -⟩
    obtain ⟨-, d', s₂, merged', hresolved', hmerged', -⟩ := (fill_one_eq_filled hlocate).mp hagain
    cases hresolved'
    exact ((merge_named hnamed _ _).mp hmerged').1
  · intro hnodup
    refine ⟨_, (fill_one_eq_filled hlocate).mpr ⟨hflag, d, _, _, rfl, (merge_named hnamed _ _).mpr ⟨hnodup, rfl⟩, rfl⟩, ?_⟩
    rw [outputOfOne, applyEdits_one]
    show replaceSpan text' ⟨l'.braceSpan, render _ (String.ofList (indentAt text' l'.lbrace)) options.layout⟩ = text'
    have hrender : render ⟨(d.fields.zip l'.elements).map fun (f, e) => suppliedEntry (.parse text') f.name e,
        l'.dangling, []⟩ (String.ofList (indentAt text l.lbrace)) options.layout =
          render merged (String.ofList (indentAt text l.lbrace)) options.layout :=
      render_congr (rows_eq hnames hread) hdangling'
    rw [hindent, hrender]
    exact hsame

/-- A literal with a comment at each place where one is kept, and a struct with a field that it does not set. -/
def notedText : List Char :=
  "package p\ntype T struct \x7b A int; B string \x7d\nvar x = T\x7b // a\n\tB: \"b\", // b\n\t// c\n\x7d\n".toList

/-- The struct of the literal in `notedText`. -/
def notedStruct : ResolvedStruct :=
  ⟨default, [⟨"A", .primitive .int, false, none⟩, ⟨"B", .primitive .string, false, none⟩], "p"⟩

theorem isWritten_notedStruct (q : Qualifier) : notedStruct.IsWritten q := by
  constructor
  · intro f hf
    simp only [notedStruct, List.mem_cons, List.not_mem_nil, or_false] at hf
    rcases hf with rfl | rfl <;> exact ⟨⟨_, _, rfl, rfl, List.all_eq_true.mp rfl⟩, rfl⟩
  · intro f hf
    simp only [notedStruct, List.mem_cons, List.not_mem_nil, or_false] at hf
    rcases hf with rfl | rfl <;> exact .primitive nofun

/-- The comments of the literal in `notedText` are kept when it is filled, and again when it is filled twice. -/
theorem fill_again_notedText : ∃ l ∈ (SourceFile.parse notedText).literals,
    (SourceFile.parse notedText).diagnostics = [] ∧ l.type.mayBeStruct ∧ l.HasNotes ∧
    notedStruct.IsWritten ((SourceFile.parse notedText).qualifier "p") ∧ ∃ output s',
      fill (described notedStruct) ⟨.parse notedText, none, "p", .offset l.typeSpan.start⟩ .standard default =
        (.filled output, s') ∧ (default : Session).poll.1 = false ∧
      ∃ output', (fill (described notedStruct) ⟨.parse (applyEdits notedText output.edits), none, "p",
          .offset l.typeSpan.start⟩ .standard default).1 = .filled output' ∧
        applyEdits (applyEdits notedText output.edits) output'.edits = applyEdits notedText output.edits := by
  have hread : (SourceFile.parse notedText).diagnostics = [] ∧
      ((SourceFile.parse notedText).literals.map fun l => ((l.type.mayBeStruct, l.typeSpan.start),
        l.elements.map (·.leading), l.elements.map (·.trailing), l.dangling)) =
      [((true, 52), [["// a"]], [some "// b"], ["// c"])] := by
    decide +kernel
  have hfilled : (fill (described notedStruct) ⟨.parse notedText, none, "p", .offset 52⟩ .standard default).1 =
      .filled ⟨[⟨⟨53, 81⟩, "\x7b\n\tA: 0,\n\t// a\n\tB: \"b\", // b\n\t// c\n\x7d"⟩], []⟩ := by
    decide +kernel
  obtain ⟨hclean, hliterals⟩ := hread
  obtain ⟨l, hl, hrest⟩ := List.map_eq_singleton_iff.mp hliterals
  simp only [Prod.mk.injEq] at hrest
  obtain ⟨⟨hstruct, hstart⟩, hleading, htrailing, hdangling⟩ := hrest
  have hnote : ∀ c : Char, c = 'a' ∨ c = 'b' ∨ c = 'c' → IsNote ['/', '/', ' ', c] := by
    rintro c (rfl | rfl | rfl) <;> exact .line (by simp) rfl
  have hnotes : l.HasNotes := by
    refine ⟨fun e he c hc => ?_, fun e he t ht => ?_, fun c hc => ?_⟩
    · have hmem : e.leading ∈ l.elements.map (·.leading) := List.mem_map_of_mem he
      rw [hleading, List.mem_singleton] at hmem
      rw [hmem, List.mem_singleton] at hc
      exact hc ▸ hnote 'a' (by simp)
    · have hmem : e.trailing ∈ l.elements.map (·.trailing) := List.mem_map_of_mem he
      rw [htrailing, List.mem_singleton] at hmem
      rw [hmem, Option.mem_some] at ht
      exact ht ▸ .last (hnote 'b' (by simp)) (by decide)
    · rw [hdangling, List.mem_singleton] at hc
      exact hc ▸ hnote 'c' (by simp)
  rw [← hstart] at hfilled
  have hfill := Prod.ext (y := (_, _)) hfilled rfl
  have hmem : l ∈ (SourceFile.parse notedText).literals := by rw [hl]; simp
  have hwritten := isWritten_notedStruct ((SourceFile.parse notedText).qualifier "p")
  exact ⟨l, hmem, hclean, hstruct, hnotes, hwritten, _, _, hfill, rfl,
    (fill_again hclean hmem hstruct hnotes (d := notedStruct) hwritten hfill rfl).mpr (by decide)⟩

end LiteralFill
