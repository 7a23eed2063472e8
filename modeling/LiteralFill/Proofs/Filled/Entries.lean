import LiteralFill.Proofs.Fill.Edits
import LiteralFill.Proofs.Fill.Filling
import LiteralFill.Proofs.Filled.Literal
import LiteralFill.Proofs.Filled.Zero
import LiteralFill.Proofs.Reading.Reports

/-!
What a literal is to hold, as lines. The entry of a field is an element of the literal or a zero value. In a text
without problems the elements stand for themselves, and so do the zero values of types that can be written; what is
rendered of them is read again.
-/

namespace LiteralFill

/-- In lists related one by one each element on the right has one on the left. -/
theorem exists_of_forall₂ {α β : Type} {R : α → β → Prop} {as : List α} {bs : List β} (h : List.Forall₂ R as bs) {b : β}
    (hb : b ∈ bs) : ∃ a ∈ as, R a b := by
  induction h with
  | nil => cases hb
  | @cons a b' as bs hfirst _ ih =>
    rcases List.mem_cons.mp hb with rfl | hb
    · exact ⟨a, by simp, hfirst⟩
    · obtain ⟨a', ha', hab⟩ := ih hb
      exact ⟨a', by simp [ha'], hab⟩

/-! ## Where entries come from -/

/-- The element sets the field at a place: its key is the name of the field, or it has no key and the same place. -/
def CompositeLiteral.Sets (l : CompositeLiteral) (fields : List (Field Ty)) (index : Nat) (e : Element) : Prop :=
  e ∈ l.elements ∧
    match e.key with
    | some key => fieldIndex fields key = some index
    | none => l.elements[index]? = some e

section

variable {fields : List (Field Ty)} {typeText : String}

/-- Keyed elements set one field each, and no field is set twice. -/
theorem matchKeyed_spec {elements : List Element} (hkeyed : ∀ e ∈ elements, e.key.isSome)
    {seen supplied : List (Nat × Element)} (hseen : (seen.map (·.1)).Nodup)
    (h : matchKeyed fields typeText seen elements = .ok supplied) :
    (supplied.map (·.1)).Nodup ∧ ∀ i e, (i, e) ∈ supplied ↔
      (i, e) ∈ seen ∨ e ∈ elements ∧ ∃ key, e.key = some key ∧ fieldIndex fields key = some i := by
  induction elements generalizing seen with
  | nil =>
    cases h
    exact ⟨hseen, by simp⟩
  | cons first rest ih =>
    obtain ⟨key, hkey⟩ := Option.isSome_iff_exists.mp (hkeyed first List.mem_cons_self)
    rw [matchKeyed, hkey] at h
    dsimp only at h
    split at h
    · cases h
    · next index hindex =>
      split at h
      · cases h
      · next hset =>
        have hnew : index ∉ seen.map (·.1) := by
          intro hmem
          obtain ⟨p, hp, rfl⟩ := List.mem_map.mp hmem
          rw [Bool.not_eq_true, Option.isSome_eq_false_iff, Option.isNone_iff_eq_none, List.lookup_eq_none_iff] at hset
          simpa using hset p hp
        have hnodup : ((seen ++ [(index, first)]).map (·.1)).Nodup := by
          rw [List.map_append, List.nodup_append]
          refine ⟨hseen, by simp, fun a ha b hb => ?_⟩
          rintro rfl
          obtain rfl : a = index := by simpa using hb
          exact hnew ha
        obtain ⟨hunique, hall⟩ := ih (fun e he => hkeyed e (List.mem_cons_of_mem first he)) hnodup h
        refine ⟨hunique, fun i e => ?_⟩
        rw [hall, List.mem_append, List.mem_singleton, Prod.mk.injEq, List.mem_cons, or_assoc, or_and_right]
        refine or_congr_right (or_congr_left ?_)
        constructor
        · rintro ⟨rfl, rfl⟩
          exact ⟨rfl, key, hkey, hindex⟩
        · rintro ⟨rfl, key', hkey', hindex'⟩
          obtain rfl : key = key' := Option.some.inj (hkey.symm.trans hkey')
          exact ⟨Option.some.inj (hindex'.symm.trans hindex), rfl⟩

/-- In a list without repeated keys a key is looked up as what stands beside it. -/
theorem lookup_eq_some_iff_mem {α : Type} {pairs : List (Nat × α)} (h : (pairs.map (·.1)).Nodup) {i : Nat} {a : α} :
    pairs.lookup i = some a ↔ (i, a) ∈ pairs := by
  constructor
  · intro hlookup
    obtain ⟨before, after, rfl, -⟩ := List.lookup_eq_some_iff.mp hlookup
    simp
  · intro hmem
    obtain ⟨before, after, rfl⟩ := List.append_of_mem hmem
    refine List.lookup_eq_some_iff.mpr ⟨before, after, rfl, fun p hp => ?_⟩
    rw [List.map_append, List.nodup_append] at h
    have hne := h.2.2 p.1 (List.mem_map_of_mem hp) i (by simp)
    simpa using hne.symm

/-- Elements without keys set the fields at their places. -/
theorem lookup_zipIdx (elements : List Element) (i : Nat) :
    (elements.zipIdx.map fun (e, i) => (i, e)).lookup i = elements[i]? := by
  have hfrom : ∀ start, (elements.zipIdx start |>.map fun (e, i) => (i, e)).lookup (start + i) = elements[i]? := by
    induction elements generalizing i with
    | nil => exact fun _ => rfl
    | cons e rest ih =>
      intro start
      rw [List.zipIdx_cons, List.map_cons, List.lookup_cons]
      cases i with
      | zero => simp
      | succ i =>
        rw [show (start + (i + 1) == start) = false by simp]
        simpa [Nat.add_assoc, Nat.add_comm 1] using ih i (start + 1)
  simpa using hfrom 0

/-- The fields are set by elements of the literal: a look-up finds the one that sets a field. -/
theorem matchElements_lookup {literal : CompositeLiteral} {supplied : List (Nat × Element)}
    (h : matchElements fields literal typeText = .ok supplied) (i : Nat) (e : Element) :
    supplied.lookup i = some e ↔ literal.Sets fields i e := by
  unfold matchElements at h
  dsimp only at h
  split at h
  · cases h
  · next hmixed =>
    have hcount := List.countP_le_length (l := literal.elements) (p := fun e => e.key.isSome)
    split at h
    · next hnone =>
      split at h
      · cases h
      · cases h
        have hkeyless : ∀ e ∈ literal.elements, e.key = none := by
          intro e he
          simpa using List.countP_eq_zero.mp hnone e he
        rw [lookup_zipIdx, CompositeLiteral.Sets]
        constructor
        · intro he
          have hmem := List.mem_of_getElem? he
          exact ⟨hmem, by rw [hkeyless e hmem]; exact he⟩
        · rintro ⟨hmem, hset⟩
          rw [hkeyless e hmem] at hset
          exact hset
    · next hsome =>
      have hkeyed : ∀ e ∈ literal.elements, e.key.isSome := by
        refine List.countP_eq_length.mp (Nat.le_antisymm hcount ?_)
        simp only [Bool.and_eq_true, decide_eq_true_eq, not_and, not_lt] at hmixed
        exact hmixed (Nat.pos_of_ne_zero hsome)
      obtain ⟨hunique, hall⟩ := matchKeyed_spec hkeyed (by simp) h
      rw [lookup_eq_some_iff_mem hunique, hall, CompositeLiteral.Sets]
      simp only [List.not_mem_nil, false_or]
      refine and_congr_right fun he => ?_
      obtain ⟨key, hkey⟩ := Option.isSome_iff_exists.mp (hkeyed e he)
      simp [hkey]

end

section

variable {file : SourceFile} {z : Synthesizer} {l : CompositeLiteral} {all : List (Field Ty)}

/-- The entry of the field at a place is made of the element that sets the field, or is its zero value if none
does. -/
inductive MergedEntry.IsOf (file : SourceFile) (z : Synthesizer) (l : CompositeLiteral) (all : List (Field Ty)) :
    Field Ty × Nat → MergedEntry → Prop
  | supplied {f : Field Ty} {i : Nat} {e : Element} (he : l.Sets all i e) :
      IsOf file z l all (f, i) (suppliedEntry file f.name e)
  | zero {f : Field Ty} {i : Nat} (hnone : ∀ e, ¬ l.Sets all i e) :
      IsOf file z l all (f, i) (zeroEntry f.name (z.synthesize f.type).1)

theorem MergedEntry.IsOf.name {p : Field Ty × Nat} {e : MergedEntry} (h : e.IsOf file z l all p) :
    e.name = p.1.name := by
  cases h <;> rfl

/-- The fields that have an entry, with their places from `index` on: those that an element sets, and those that may
be set. -/
def entryFields (samePackage : Bool) (supplied : List (Nat × Element)) (index : Nat) (fields : List (Field Ty)) :
    List (Field Ty × Nat) :=
  (fields.zipIdx index).filter fun p => (supplied.lookup p.2).isSome || (p.1.exported || samePackage)

theorem entryFields_cons (samePackage : Bool) (supplied : List (Nat × Element)) (index : Nat) (f : Field Ty)
    (rest : List (Field Ty)) :
    entryFields samePackage supplied index (f :: rest) =
      if (supplied.lookup index).isSome || (f.exported || samePackage) then
        (f, index) :: entryFields samePackage supplied (index + 1) rest
      else entryFields samePackage supplied (index + 1) rest := by
  rw [entryFields, List.zipIdx_cons, List.filter_cons]
  rfl

/-- Entries are in the order of the fields, one for each field that has one. -/
theorem mergeFields_isOf {samePackage : Bool} {supplied : List (Nat × Element)}
    (hsupplied : ∀ i e, supplied.lookup i = some e ↔ l.Sets all i e) {index : Nat} {fields : List (Field Ty)}
    {s s' : Session} {entries : List MergedEntry} {imports : PathSet}
    (h : mergeFields file z samePackage supplied index fields s = (some (entries, imports), s')) :
    List.Forall₂ (MergedEntry.IsOf file z l all) (entryFields samePackage supplied index fields) entries := by
  induction fields generalizing index s s' entries imports with
  | nil =>
    cases h
    exact .nil
  | cons f rest ih =>
    rw [entryFields_cons]
    cases hlookup : supplied.lookup index with
    | some e =>
      rw [Option.isSome_some, Bool.true_or, if_pos rfl]
      rw [mergeFields_supplied hlookup] at h
      rcases hrest : mergeFields file z samePackage supplied (index + 1) rest s with ⟨_ | ⟨more, paths⟩, s₁⟩ <;>
        rw [hrest] at h <;> cases h
      exact .cons (.supplied ((hsupplied index e).mp hlookup)) (ih hrest)
    | none =>
      have hnone : ∀ e, ¬ l.Sets all index e := fun e he => by
        rw [(hsupplied index e).mpr he] at hlookup
        cases hlookup
      rw [Option.isSome_none, Bool.false_or]
      cases hset : f.exported || samePackage with
      | true =>
        rw [if_pos rfl]
        rw [mergeFields_zero hlookup hset] at h
        rcases hpoll : s.poll with ⟨_ | _, s₁⟩ <;> rw [hpoll] at h
        · rw [mergeZero] at h
          rcases hrest : mergeFields file z samePackage supplied (index + 1) rest s₁ with ⟨_ | ⟨more, paths⟩, s₂⟩ <;>
            rw [hrest] at h <;> cases h
          exact .cons (.zero hnone) (ih hrest)
        · cases h
      | false =>
        rw [mergeFields_hidden hlookup hset] at h
        rw [if_neg (by simp)]
        exact ih h

/-- What a merge that succeeds is made of. -/
theorem merge_isOf {resolved : ResolvedStruct} {s : Session} {merged : Merged}
    (h : (merge file l resolved z s).1 = .ok (some merged)) :
    merged.dangling = l.dangling ∧ ∃ set : List (Field Ty × Nat), set.Sublist resolved.fields.zipIdx ∧
      (resolved.packagePath = z.packagePath → set = resolved.fields.zipIdx) ∧
      List.Forall₂ (MergedEntry.IsOf file z l resolved.fields) set merged.entries := by
  cases hmatched : matchElements resolved.fields l (file.slice l.typeSpan) with
  | error e =>
    rw [merge, hmatched] at h
    cases h
  | ok supplied =>
    rw [merge_of_matched hmatched] at h
    rcases hfields : mergeFields file z (resolved.packagePath == z.packagePath) supplied 0 resolved.fields s with
      ⟨_ | ⟨entries, imports⟩, s₁⟩ <;> rw [hfields] at h <;> cases h
    refine ⟨rfl, _, List.filter_sublist, fun hs => ?_, mergeFields_isOf (matchElements_lookup hmatched) hfields⟩
    exact List.filter_eq_self.mpr fun p _ => by simp [hs]

end

/-! ## A request for one literal -/

section

variable {resolve : StructResolver} {r : FillRequest} {options : FillOptions} {l : CompositeLiteral}

/-- The answer to a request that means one literal. -/
def answerOfOne (r : FillRequest) : LiteralOutcome → FillOutcome
  | .stopped outcome => outcome
  | .leftAlone => .failed (.noLiteral (targetSpan r.file r.target))
  | .edited edit paths => .filled ⟨[edit], r.file.missingImports r.packagePath paths⟩

theorem fill_one (h : locate r.file r.target = .ok [l]) (s : Session) :
    (fill resolve r options s).1 = answerOfOne r (fillLiteral resolve r options l s).1 := by
  rw [(fill_of_locate h resolve options s).1, fillLiterals_cons]
  rcases fillLiteral resolve r options l s with ⟨outcome, s₁⟩
  cases outcome with
  | stopped outcome => rfl
  | leftAlone => rfl
  | edited edit paths => simp [fillRest, fillLiterals, outcomeBehind, answerOf, answerOfOne, sortEdits, PathSet.union]

/-- What a request that fills one literal gives: other braces in the place of its braces. -/
def outputOfOne (r : FillRequest) (options : FillOptions) (l : CompositeLiteral) (merged : Merged) : FillOutput :=
  ⟨[⟨l.braceSpan, render merged (String.ofList (indentAt r.file.text l.lbrace)) options.layout⟩],
    r.file.missingImports r.packagePath merged.imports⟩

theorem onResolveError_unfilled (e : ResolveError) (output : FillOutput) :
    answerOfOne r (onResolveError r l e) ≠ .filled output := by
  cases e with
  | notAStruct name underlying =>
    unfold onResolveError
    dsimp only
    split <;> nofun
  | _ => nofun

/-- A request that means one literal succeeds when its type is found and its elements are set against the fields,
and then its braces are replaced. -/
theorem fill_one_eq_filled (h : locate r.file r.target = .ok [l]) {s : Session} {output : FillOutput} :
    (fill resolve r options s).1 = .filled output ↔ s.poll.1 = false ∧ ∃ resolved s₁ merged,
      resolve ⟨r.file, r.path, r.packagePath, l.lbrace⟩ l.type s.poll.2 = (.ok resolved, s₁) ∧
      (merge r.file l resolved (options.synthesizer r) s₁).1 = .ok (some merged) ∧
      output = outputOfOne r options l merged := by
  rw [fill_one h, fillLiteral_eq]
  cases s.poll.1 with
  | true => simp [fillPolled, answerOfOne]
  | false =>
    rw [fillPolled]
    rcases hresolve : resolve ⟨r.file, r.path, r.packagePath, l.lbrace⟩ l.type s.poll.2 with ⟨e | resolved, s₁⟩
    · simp [fillFound, onResolveError_unfilled]
    · rw [fillFound, fillResolved_eq]
      have hinner : (∃ resolved' s₁' merged, (Except.ok (ε := ResolveError) resolved, s₁) = (.ok resolved', s₁') ∧
          (merge r.file l resolved' (options.synthesizer r) s₁').1 = .ok (some merged) ∧
          output = outputOfOne r options l merged) ↔
          ∃ merged, (merge r.file l resolved (options.synthesizer r) s₁).1 = .ok (some merged) ∧
            output = outputOfOne r options l merged := by
        constructor
        · rintro ⟨_, _, merged, ⟨⟩, hmerge, houtput⟩
          exact ⟨merged, hmerge, houtput⟩
        · rintro ⟨merged, hmerge, houtput⟩
          exact ⟨resolved, s₁, merged, rfl, hmerge, houtput⟩
      rw [hinner]
      rcases (merge r.file l resolved (options.synthesizer r) s₁).1 with e | _ | merged
      · simp [outcomeOfMerge, answerOfOne]
      · simp [outcomeOfMerge, answerOfOne]
      · simp [outcomeOfMerge, answerOfOne, outputOfOne, eq_comm]

end

/-! ## Entries that can be written -/

/-- The comments of a literal are recorded whole, and those behind an element stand on its line. -/
structure CompositeLiteral.HasNotes (l : CompositeLiteral) : Prop where
  leading : ∀ e ∈ l.elements, ∀ c ∈ e.leading, IsNote c.toList
  trailing : ∀ e ∈ l.elements, ∀ t ∈ e.trailing, IsTrail t.toList
  dangling : ∀ c ∈ l.dangling, IsNote c.toList

/-- The fields of a struct can be written in a file. -/
structure ResolvedStruct.IsWritten (q : Qualifier) (d : ResolvedStruct) : Prop where
  names : ∀ f ∈ d.fields, IsIdentifier f.name.toList
  types : ∀ f ∈ d.fields, f.type.IsWritten q

variable {text : List Char} {l : CompositeLiteral} {z : Synthesizer}

/-- The row of an entry is what it is taken for. -/
theorem MergedEntry.IsOf.isSound (hclean : (Lexed.ofText text).2 = []) (hl : l ∈ (SourceFile.parse text).literals)
    (hnotes : l.HasNotes) {all : List (Field Ty)} {p : Field Ty × Nat} (hname : IsIdentifier p.1.name.toList)
    (htype : p.1.type.IsWritten z.qualifier) {e : MergedEntry} (h : e.IsOf (.parse text) z l all p) {layout : Layout}
    {indent : String} (hindent : ∀ c ∈ indent.toList, isLineBlank c) : (entryRow layout indent e).IsSound := by
  cases h with
  | @supplied f i e he =>
    refine ⟨hname, ?_, hnotes.leading e he.1, hnotes.trailing e he.1⟩
    show IsValueText (String.ofList (slice text e.value)).toList
    rw [String.toList_ofList]
    exact SourceFile.isValueText_value hclean hl he.1
  | zero =>
    have hzero := z.isWritten_synthesize htype
    refine ⟨hname, (hzero.isTermText (isLineBlank_unit layout.indent) hindent layout.align).isValueText, ?_, ?_⟩
    · exact fun c hc => absurd hc List.not_mem_nil
    · rintro t ⟨⟩

/-- What a literal with whole comments is to hold can be rendered and read again. -/
theorem merge_isSound (hclean : (Lexed.ofText text).2 = []) (hl : l ∈ (SourceFile.parse text).literals)
    (hnotes : l.HasNotes) {resolved : ResolvedStruct} (hwritten : resolved.IsWritten z.qualifier) {s : Session}
    {merged : Merged} (h : (merge (.parse text) l resolved z s).1 = .ok (some merged)) {layout : Layout}
    {indent : String} (hindent : ∀ c ∈ indent.toList, isLineBlank c) : merged.IsSound layout indent := by
  obtain ⟨hdangling, set, hsub, -, hentries⟩ := merge_isOf h
  refine ⟨fun e he => ?_, fun c hc => hnotes.dangling c (hdangling ▸ hc)⟩
  obtain ⟨p, hp, hof⟩ := exists_of_forall₂ hentries he
  have hfield := List.fst_mem_of_mem_zipIdx (hsub.mem hp)
  exact hof.isSound hclean hl hnotes (hwritten.names p.1 hfield) (hwritten.types p.1 hfield) hindent

end LiteralFill
