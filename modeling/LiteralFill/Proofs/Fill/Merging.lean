import LiteralFill.Proofs.Filled.Entries
import LiteralFill.Proofs.Fill.Cancellation

/-!
The rule by which the elements of a literal are set against the fields of its struct. All elements have keys or none
has. Without keys they set the fields in order, and there are no more of them than fields; with keys each sets the
field that it names, and no field is named twice. The first fault decides what is told. Where there is none, the
fields keep their order, each element is carried over once, and the other fields that may be set get zero values.
-/

namespace LiteralFill

/-! ## Faults -/

section

variable (fields : List (Field Ty)) (typeText : String)

/-- A key is the name of a field. -/
def Key.NamesField (key : Key) : Prop := key.isIdent = true ∧ ∃ f ∈ fields, f.name = key.text

/-- What is wrong with a keyed element behind others: its key is the name of no field, or of one that another
element names before. -/
inductive KeyFault (before : List Element) (e : Element) : FillError → Prop
  | unknown {key : Key} (hkey : e.key = some key) (hnone : ¬ key.NamesField fields) :
      KeyFault before e
        (.unknownField key.text typeText (suggestSimilar key.text (fields.map (·.name))) key.span)
  | again {key key' : Key} {e' : Element} (hkey : e.key = some key) (hnames : key.NamesField fields)
      (he' : e' ∈ before) (hkey' : e'.key = some key') (hnames' : key'.NamesField fields)
      (hsame : key'.text = key.text) :
      KeyFault before e (.duplicateField key.text key.span)

/-- The first fault of keyed elements behind others. -/
inductive FirstKeyFault : List Element → List Element → FillError → Prop
  | here {before rest : List Element} {e : Element} {fault : FillError}
      (h : KeyFault fields typeText before e fault) : FirstKeyFault before (e :: rest) fault
  | later {before rest : List Element} {e : Element} {fault : FillError}
      (hnone : ∀ other, ¬ KeyFault fields typeText before e other)
      (h : FirstKeyFault (before ++ [e]) rest fault) : FirstKeyFault before (e :: rest) fault

/-- What is wrong with the elements of a literal. -/
inductive CompositeLiteral.Fault (l : CompositeLiteral) : FillError → Prop
  | mixed {e e' : Element} (he : e ∈ l.elements) (hkeyed : e.key.isSome) (he' : e' ∈ l.elements)
      (hkeyless : e'.key = none) : Fault l (.mixedElements typeText l.span)
  | tooMany {extra : Element} (hkeyless : ∀ e ∈ l.elements, e.key = none)
      (hextra : l.elements[fields.length]? = some extra) :
      Fault l (.tooManyValues typeText fields.length l.elements.length extra.span)
  | key {fault : FillError} (hkeyed : ∀ e ∈ l.elements, e.key.isSome)
      (h : FirstKeyFault fields typeText [] l.elements fault) : Fault l fault

end

section

variable {fields : List (Field Ty)} {typeText : String}

theorem fieldIndex_eq_none {key : Key} : fieldIndex fields key = none ↔ ¬ key.NamesField fields := by
  unfold fieldIndex Key.NamesField
  cases key.isIdent with
  | false => simp
  | true => simp [List.findIdx?_eq_none_iff]

theorem namesField_of_fieldIndex {key : Key} {i : Nat} (h : fieldIndex fields key = some i) : key.NamesField fields := by
  by_cases hnames : key.NamesField fields
  · exact hnames
  · rw [fieldIndex_eq_none.mpr hnames] at h
    cases h

/-- Another key is the name of the same field if and only if it is the same name. -/
theorem fieldIndex_eq_iff {key key' : Key} {i : Nat} (h : fieldIndex fields key = some i) :
    fieldIndex fields key' = some i ↔ key'.NamesField fields ∧ key'.text = key.text := by
  have htext : ∀ k : Key, fieldIndex fields k = some i → ∃ f, fields[i]? = some f ∧ f.name = k.text := by
    intro k hk
    unfold fieldIndex at hk
    split at hk
    · obtain ⟨hi, hname, -⟩ := List.findIdx?_eq_some_iff_getElem.mp hk
      exact ⟨fields[i], List.getElem?_eq_getElem hi, by simpa using hname⟩
    · cases hk
  constructor
  · intro h'
    obtain ⟨f, hf, hname⟩ := htext key h
    obtain ⟨f', hf', hname'⟩ := htext key' h'
    obtain rfl : f' = f := Option.some.inj (hf'.symm.trans hf)
    exact ⟨namesField_of_fieldIndex h', hname'.symm.trans hname⟩
  · rintro ⟨⟨hident, -⟩, hsame⟩
    have hident' := (namesField_of_fieldIndex h).1
    rw [← h]
    simp [fieldIndex, hident, hident', hsame]

/-! ## Keyed elements -/

theorem keyFault_unknown {before : List Element} {e : Element} {key : Key} (hkey : e.key = some key)
    (h : fieldIndex fields key = none) {fault : FillError} :
    KeyFault fields typeText before e fault ↔
      fault = .unknownField key.text typeText (suggestSimilar key.text (fields.map (·.name))) key.span := by
  have hnone := fieldIndex_eq_none.mp h
  constructor
  · rintro (⟨hkey', -⟩ | ⟨hkey', hnames, -⟩)
    all_goals obtain rfl := Option.some.inj (hkey.symm.trans hkey')
    · rfl
    · exact absurd hnames hnone
  · rintro rfl
    exact .unknown hkey hnone

theorem keyFault_again {before : List Element} {e : Element} {key : Key} (hkey : e.key = some key) {i : Nat}
    (h : fieldIndex fields key = some i) {fault : FillError} :
    KeyFault fields typeText before e fault ↔
      (∃ e' ∈ before, ∃ key', e'.key = some key' ∧ fieldIndex fields key' = some i) ∧
        fault = .duplicateField key.text key.span := by
  have hnames := namesField_of_fieldIndex h
  constructor
  · rintro (⟨hkey', hnone⟩ | ⟨hkey', -, he', hkey'', hnames', hsame⟩)
    all_goals obtain rfl := Option.some.inj (hkey.symm.trans hkey')
    · exact absurd hnames hnone
    · exact ⟨⟨_, he', _, hkey'', (fieldIndex_eq_iff h).mpr ⟨hnames', hsame⟩⟩, rfl⟩
  · rintro ⟨⟨e', he', key', hkey', hindex⟩, rfl⟩
    obtain ⟨hnames', hsame⟩ := (fieldIndex_eq_iff h).mp hindex
    exact .again hkey hnames he' hkey' hnames' hsame

theorem firstKeyFault_nil {before : List Element} {fault : FillError} :
    ¬ FirstKeyFault fields typeText before [] fault := nofun

theorem firstKeyFault_cons {before rest : List Element} {e : Element} {fault : FillError} :
    FirstKeyFault fields typeText before (e :: rest) fault ↔
      KeyFault fields typeText before e fault ∨
        (∀ other, ¬ KeyFault fields typeText before e other) ∧
          FirstKeyFault fields typeText (before ++ [e]) rest fault := by
  constructor
  · rintro (h | ⟨hnone, h⟩)
    · exact .inl h
    · exact .inr ⟨hnone, h⟩
  · rintro (h | ⟨hnone, h⟩)
    · exact .here h
    · exact .later hnone h

/-- Keyed elements are refused for the first fault. `seen` has the fields that those before name. -/
theorem matchKeyed_eq_error (before : List Element) {elements : List Element} (hkeyed : ∀ e ∈ elements, e.key.isSome)
    {seen : List (Nat × Element)}
    (hseen : ∀ i, (seen.lookup i).isSome ↔ ∃ e ∈ before, ∃ key, e.key = some key ∧ fieldIndex fields key = some i)
    {fault : FillError} :
    matchKeyed fields typeText seen elements = .error fault ↔ FirstKeyFault fields typeText before elements fault := by
  induction elements generalizing before seen with
  | nil => exact iff_of_false nofun firstKeyFault_nil
  | cons e rest ih =>
    obtain ⟨key, hkey⟩ := Option.isSome_iff_exists.mp (hkeyed e List.mem_cons_self)
    rw [matchKeyed, hkey, firstKeyFault_cons]
    dsimp only
    cases hindex : fieldIndex fields key with
    | none =>
      -- an unknown field is told, and nothing behind it
      simp only [keyFault_unknown hkey hindex, Except.error.injEq]
      constructor
      · intro h
        exact .inl h.symm
      · rintro (h | ⟨hnone, -⟩)
        · exact h.symm
        · exact absurd rfl (hnone _)
    | some i =>
      simp only [keyFault_again hkey hindex, ← hseen i]
      cases hlookup : (seen.lookup i).isSome with
      | true =>
        simp only [if_true, true_and, Except.error.injEq]
        constructor
        · intro h
          exact .inl h.symm
        · rintro (h | ⟨hnone, -⟩)
          · exact h.symm
          · exact absurd rfl (hnone _)
      | false =>
        have hmore : ∀ j, ((seen ++ [(i, e)]).lookup j).isSome ↔
            ∃ e' ∈ before ++ [e], ∃ key', e'.key = some key' ∧ fieldIndex fields key' = some j := by
          intro j
          have hfirst : (List.lookup j [(i, e)]).isSome ↔ fieldIndex fields key = some j := by
            rw [hindex, Option.some.injEq, List.lookup_cons]
            cases hj : j == i with
            | true => simp [eq_of_beq hj]
            | false => simp [Ne.symm (ne_of_beq_false hj)]
          rw [List.lookup_append, Option.isSome_or, Bool.or_eq_true, hseen, hfirst]
          simp only [List.mem_append, List.mem_singleton, or_and_right, exists_or, exists_eq_left, hkey,
            Option.some.injEq, exists_eq_left']
        simp only [Bool.false_eq_true, if_false, false_and, false_or, not_false_eq_true, implies_true, true_and]
        exact ih _ (fun e' he' => hkeyed e' (List.mem_cons_of_mem e he')) hmore

/-! ## Literals -/

section

variable {l : CompositeLiteral}

theorem matchElements_mixed {e e' : Element} (he : e ∈ l.elements) (hkeyed : e.key.isSome) (he' : e' ∈ l.elements)
    (hkeyless : e'.key = none) : matchElements fields l typeText = .error (.mixedElements typeText l.span) := by
  have hsome : 0 < l.elements.countP (·.key.isSome) := List.countP_pos_iff.mpr ⟨e, he, hkeyed⟩
  have hnotall : l.elements.countP (·.key.isSome) ≠ l.elements.length := by
    intro h
    have := List.countP_eq_length.mp h e' he'
    rw [hkeyless] at this
    cases this
  have hlt := Nat.lt_of_le_of_ne List.countP_le_length hnotall
  unfold matchElements
  simp [hsome, hlt]

theorem matchElements_keyless (h : ∀ e ∈ l.elements, e.key = none) :
    matchElements fields l typeText =
      match l.elements[fields.length]? with
      | some extra => .error (.tooManyValues typeText fields.length l.elements.length extra.span)
      | none => .ok (l.elements.zipIdx.map fun (e, i) => (i, e)) := by
  have hnone : l.elements.countP (·.key.isSome) = 0 := List.countP_eq_zero.mpr fun e he => by simp [h e he]
  unfold matchElements
  dsimp only
  rw [hnone]
  rfl

theorem matchElements_keyed (h : ∀ e ∈ l.elements, e.key.isSome) (hne : l.elements ≠ []) :
    matchElements fields l typeText = matchKeyed fields typeText [] l.elements := by
  have hall : l.elements.countP (·.key.isSome) = l.elements.length := List.countP_eq_length.mpr h
  have hsome : l.elements.length ≠ 0 := fun hlength => hne (List.eq_nil_of_length_eq_zero hlength)
  unfold matchElements
  simp [hall, hne]

/-- All elements of a literal have keys, or none has, or some have and some have not. -/
theorem CompositeLiteral.keys_cases (l : CompositeLiteral) :
    (∀ e ∈ l.elements, e.key = none) ∨ ((∀ e ∈ l.elements, e.key.isSome) ∧ l.elements ≠ []) ∨
      ∃ e ∈ l.elements, ∃ e' ∈ l.elements, e.key.isSome ∧ e'.key = none := by
  by_cases hnone : ∀ e ∈ l.elements, e.key = none
  · exact .inl hnone
  · obtain ⟨e, he, hkey⟩ : ∃ e ∈ l.elements, e.key ≠ none := by simpa using hnone
    by_cases hall : ∀ e ∈ l.elements, e.key.isSome
    · exact .inr (.inl ⟨hall, List.ne_nil_of_mem he⟩)
    · obtain ⟨e', he', hkey'⟩ : ∃ e' ∈ l.elements, e'.key = none := by simpa using hall
      exact .inr (.inr ⟨e, he, e', he', Option.isSome_iff_ne_none.mpr hkey, hkey'⟩)

/-- The elements of a literal are refused for its fault, if it has one. -/
theorem matchElements_eq_error {fault : FillError} :
    matchElements fields l typeText = .error fault ↔ l.Fault fields typeText fault := by
  rcases l.keys_cases with hkeyless | ⟨hkeyed, hne⟩ | ⟨e, he, e', he', hkey, hkey'⟩
  · rw [matchElements_keyless hkeyless]
    constructor
    · intro h
      split at h
      · next extra hextra =>
        cases h
        exact .tooMany hkeyless hextra
      · cases h
    · rintro (⟨he, hkeyed, -, -⟩ | ⟨-, hextra⟩ | ⟨hkeyed, h⟩)
      · rw [hkeyless _ he] at hkeyed
        cases hkeyed
      · rw [hextra]
      · -- a literal without elements has no first fault
        cases hnil : l.elements with
        | nil =>
          rw [hnil] at h
          exact absurd h firstKeyFault_nil
        | cons e rest =>
          have he : e ∈ l.elements := hnil ▸ List.mem_cons_self
          have := hkeyed e he
          rw [hkeyless e he] at this
          cases this
  · rw [matchElements_keyed hkeyed hne, matchKeyed_eq_error [] hkeyed (by simp)]
    constructor
    · intro h
      exact .key hkeyed h
    · rintro (⟨-, -, he', hkeyless⟩ | ⟨hkeyless, -⟩ | ⟨-, h⟩)
      · have := hkeyed _ he'
        rw [hkeyless] at this
        cases this
      · obtain ⟨e, he⟩ := List.exists_mem_of_ne_nil _ hne
        have := hkeyed e he
        rw [hkeyless e he] at this
        cases this
      · exact h
  · rw [matchElements_mixed he hkey he' hkey']
    constructor
    · intro h
      cases h
      exact .mixed he hkey he' hkey'
    · rintro (⟨-, -, -, -⟩ | ⟨hkeyless, -⟩ | ⟨hkeyed, -⟩)
      · rfl
      · rw [hkeyless e he] at hkey
        cases hkey
      · have := hkeyed e' he'
        rw [hkey'] at this
        cases this

/-! ## Elements that are carried over -/

theorem matchKeyed_elements {elements : List Element} (hkeyed : ∀ e ∈ elements, e.key.isSome)
    {seen supplied : List (Nat × Element)} (h : matchKeyed fields typeText seen elements = .ok supplied) :
    supplied.map (·.2) = seen.map (·.2) ++ elements := by
  induction elements generalizing seen with
  | nil =>
    cases h
    simp
  | cons e rest ih =>
    obtain ⟨key, hkey⟩ := Option.isSome_iff_exists.mp (hkeyed e List.mem_cons_self)
    rw [matchKeyed, hkey] at h
    dsimp only at h
    split at h
    · cases h
    · split at h
      · cases h
      · have := ih (fun e' he' => hkeyed e' (List.mem_cons_of_mem e he')) h
        simpa using this

/-- Every element sets one field, and no field is set by two. -/
theorem matchElements_supplied {supplied : List (Nat × Element)}
    (h : matchElements fields l typeText = .ok supplied) :
    supplied.map (·.2) = l.elements ∧ (supplied.map (·.1)).Nodup ∧ ∀ i ∈ supplied.map (·.1), i < fields.length := by
  rcases l.keys_cases with hkeyless | ⟨hkeyed, hne⟩ | ⟨e, he, e', he', hkey, hkey'⟩
  · rw [matchElements_keyless hkeyless] at h
    split at h
    · cases h
    · next hnone =>
      cases h
      have hindices : (l.elements.zipIdx.map fun (e, i) => (i, e)).map (·.1) = List.range' 0 l.elements.length := by
        rw [List.map_map, ← List.zipIdx_map_snd]
        rfl
      rw [hindices]
      refine ⟨?_, List.nodup_range', fun i hi => ?_⟩
      · rw [List.map_map]
        exact List.zipIdx_map_fst ..
      · have hlength := List.getElem?_eq_none_iff.mp hnone
        have := List.mem_range'_1.mp hi
        omega
  · rw [matchElements_keyed hkeyed hne] at h
    obtain ⟨hnodup, hall⟩ := matchKeyed_spec hkeyed (by simp) h
    refine ⟨matchKeyed_elements hkeyed h, hnodup, fun i hi => ?_⟩
    obtain ⟨⟨i, e⟩, hmem, rfl⟩ := List.mem_map.mp hi
    obtain ⟨-, key, -, hindex⟩ := ((hall i e).mp hmem).resolve_left List.not_mem_nil
    unfold fieldIndex at hindex
    split at hindex
    · exact (List.findIdx?_eq_some_iff_getElem.mp hindex).choose
    · cases hindex
  · rw [matchElements_mixed he hkey he' hkey'] at h
    cases h

end

end

/-- The values looked up for all places are those of the list, once each. -/
theorem filterMap_lookup_perm {α : Type} {pairs : List (Nat × α)} (hpairs : (pairs.map (·.1)).Nodup)
    {places : List Nat} (hplaces : places.Nodup) (hall : ∀ i ∈ pairs.map (·.1), i ∈ places) :
    (places.filterMap fun i => pairs.lookup i).Perm (pairs.map (·.2)) := by
  have hset : ∀ i, (pairs.lookup i).isSome ↔ i ∈ pairs.map (·.1) := by
    intro i
    rw [Option.isSome_iff_exists, List.mem_map]
    constructor
    · rintro ⟨a, ha⟩
      exact ⟨(i, a), (lookup_eq_some_iff_mem hpairs).mp ha, rfl⟩
    · rintro ⟨⟨i, a⟩, ha, rfl⟩
      exact ⟨a, (lookup_eq_some_iff_mem hpairs).mpr ha⟩
  have hplaced : (places.filter fun i => (pairs.lookup i).isSome).Perm (pairs.map (·.1)) := by
    refine (List.perm_ext_iff_of_nodup (hplaces.filter _) hpairs).mpr fun i => ?_
    rw [List.mem_filter, hset]
    exact ⟨fun h => h.2, fun h => ⟨hall i h, h⟩⟩
  have hskip : (places.filter fun i => (pairs.lookup i).isSome).filterMap (fun i => pairs.lookup i) =
      places.filterMap fun i => pairs.lookup i := by
    rw [List.filterMap_filter]
    refine List.filterMap_congr fun i _ => ?_
    cases pairs.lookup i <;> rfl
  have hvalues : (pairs.map (·.1)).filterMap (fun i => pairs.lookup i) = pairs.map (·.2) := by
    rw [List.filterMap_map, ← List.filterMap_eq_map]
    exact List.filterMap_congr fun p hp => (lookup_eq_some_iff_mem hpairs).mpr hp
  rw [← hskip, ← hvalues]
  exact hplaced.filterMap _

section

variable {file : SourceFile} {z : Synthesizer} {l : CompositeLiteral}

/-- The entries that are carried over are those of the elements that set their fields. -/
theorem forall₂_carried {all : List (Field Ty)} {supplied : List (Nat × Element)}
    (hsupplied : ∀ i e, supplied.lookup i = some e ↔ l.Sets all i e) {set : List (Field Ty × Nat)}
    {entries : List MergedEntry} (h : List.Forall₂ (MergedEntry.IsOf file z l all) set entries) :
    List.Forall₂ (fun e entry => entry = suppliedEntry file entry.name e)
      (set.filterMap fun p => supplied.lookup p.2) (entries.filter (·.userSupplied)) := by
  induction h with
  | nil => exact .nil
  | @cons p entry set entries hfirst _ ih =>
    cases hfirst with
    | @supplied f i e he =>
      have hhead : supplied.lookup (f, i).2 = some e := (hsupplied i e).mpr he
      rw [List.filterMap_cons, hhead, List.filter_cons_of_pos rfl]
      exact .cons rfl ih
    | @zero f i hnone =>
      have hhead : supplied.lookup (f, i).2 = none := by
        rw [Option.eq_none_iff_forall_ne_some]
        exact fun e he => hnone e ((hsupplied i e).mp he)
      rw [List.filterMap_cons, hhead, List.filter_cons_of_neg Bool.false_ne_true]
      exact ih

/-- The types of the zero values are those of the fields that no element sets and that may be set. -/
theorem mem_zeroedTypes {samePackage : Bool} {supplied : List (Nat × Element)} {index : Nat}
    {fields : List (Field Ty)} {t : Ty} :
    t ∈ zeroedTypes samePackage supplied index fields ↔ ∃ f i, (f, i) ∈ fields.zipIdx index ∧
      supplied.lookup i = none ∧ (f.exported || samePackage) = true ∧ f.type = t := by
  unfold zeroedTypes
  induction fields generalizing index with
  | nil => simp [unsetFields]
  | cons f rest ih =>
    have hrest : ∀ P : Field Ty → Nat → Prop, (∃ g i, (g, i) ∈ (f :: rest).zipIdx index ∧ P g i) ↔
        P f index ∨ ∃ g i, (g, i) ∈ rest.zipIdx (index + 1) ∧ P g i := by
      intro P
      simp only [List.zipIdx_cons, List.mem_cons, Prod.mk.injEq, or_and_right, exists_or]
      refine or_congr_left ⟨?_, fun h => ⟨f, index, ⟨rfl, rfl⟩, h⟩⟩
      rintro ⟨_, _, ⟨rfl, rfl⟩, h⟩
      exact h
    rw [hrest, ← ih, unsetFields]
    cases hlookup : supplied.lookup index with
    | some e => simp
    | none =>
      rw [Option.isSome_none, if_neg (by simp), List.filter_cons]
      cases hset : f.exported || samePackage with
      | true =>
        rw [if_pos rfl, List.map_cons, List.mem_cons, eq_comm]
        simp
      | false => simp

end

/-! ## The rule -/

/-- What a literal is to hold by the rule. The entries are in the order of the fields, one for each field that an
element sets or that may be set; each element is carried over once, and the imports are those of the zero values. -/
structure Merged.IsByRule (file : SourceFile) (z : Synthesizer) (l : CompositeLiteral) (resolved : ResolvedStruct)
    (m : Merged) : Prop where
  entries : ∃ set : List (Field Ty × Nat), set.Sublist resolved.fields.zipIdx ∧
    (∀ f i, (f, i) ∈ resolved.fields.zipIdx →
      ((f, i) ∈ set ↔ (∃ e, l.Sets resolved.fields i e) ∨ f.exported = true ∨ resolved.packagePath = z.packagePath)) ∧
    List.Forall₂ (MergedEntry.IsOf file z l resolved.fields) set m.entries
  carried : ∃ es : List Element, es.Perm l.elements ∧
    List.Forall₂ (fun e entry => entry = suppliedEntry file entry.name e) es (m.entries.filter (·.userSupplied))
  dangling : m.dangling = l.dangling
  mem_imports : ∀ p, p ∈ m.imports ↔ ∃ f i, (f, i) ∈ resolved.fields.zipIdx ∧
    (∀ e, ¬ l.Sets resolved.fields i e) ∧ (f.exported = true ∨ resolved.packagePath = z.packagePath) ∧
    p ∈ (z.synthesize f.type).2

section

variable {file : SourceFile} {z : Synthesizer} {l : CompositeLiteral} {resolved : ResolvedStruct}

theorem merge_eq_error {s : Session} {fault : FillError} :
    (merge file l resolved z s).1 = .error fault ↔
      l.Fault resolved.fields (file.slice l.typeSpan) fault := by
  rw [← matchElements_eq_error]
  cases hmatched : matchElements resolved.fields l (file.slice l.typeSpan) with
  | error e =>
    rw [merge, hmatched]
    simp
  | ok supplied =>
    rw [merge_of_matched hmatched]
    constructor
    · intro h
      cases h
    · intro h
      cases h

theorem merge_isByRule {s : Session} {merged : Merged} (h : (merge file l resolved z s).1 = .ok (some merged)) :
    merged.IsByRule file z l resolved := by
  cases hmatched : matchElements resolved.fields l (file.slice l.typeSpan) with
  | error e =>
    rw [merge, hmatched] at h
    cases h
  | ok supplied =>
    rw [merge_of_matched hmatched] at h
    rcases hfields : mergeFields file z (resolved.packagePath == z.packagePath) supplied 0 resolved.fields s with
      ⟨_ | ⟨entries, imports⟩, s₁⟩ <;> rw [hfields] at h <;> cases h
    have hlookup := matchElements_lookup hmatched
    obtain ⟨helements, hnodup, hbound⟩ := matchElements_supplied hmatched
    have hentries := mergeFields_isOf hlookup hfields
    have hset : ∀ i, (supplied.lookup i).isSome ↔ ∃ e, l.Sets resolved.fields i e := fun i => by
      simp only [Option.isSome_iff_exists, hlookup]
    refine ⟨⟨_, List.filter_sublist, fun f i hmem => ?_, hentries⟩, ⟨_, ?_, forall₂_carried hlookup hentries⟩, rfl, ?_⟩
    · rw [List.mem_filter, and_iff_right hmem]
      simp only [Bool.or_eq_true, beq_iff_eq, hset]
    · have hskip : (entryFields (resolved.packagePath == z.packagePath) supplied 0 resolved.fields).filterMap
          (fun p => supplied.lookup p.2) = (List.range' 0 resolved.fields.length).filterMap fun i => supplied.lookup i := by
        rw [entryFields, List.filterMap_filter, ← List.zipIdx_map_snd, List.filterMap_map]
        refine List.filterMap_congr fun p _ => ?_
        cases hp : supplied.lookup p.2 <;> simp [hp]
      rw [hskip, ← helements]
      refine filterMap_lookup_perm hnodup List.nodup_range' fun i hi => ?_
      exact List.mem_range'_1.mpr ⟨Nat.zero_le i, by simpa using hbound i hi⟩
    · intro p
      have hnone : ∀ i, supplied.lookup i = none ↔ ∀ e, ¬ l.Sets resolved.fields i e := fun i => by
        rw [Option.eq_none_iff_forall_ne_some]
        simp only [ne_eq, hlookup]
      rw [(mergeFields_zeros hfields).2]
      simp only [mem_zeroedTypes, hnone, Bool.or_eq_true, beq_iff_eq]
      constructor
      · rintro ⟨_, ⟨f, i, hmem, hset, hshown, rfl⟩, hp⟩
        exact ⟨f, i, hmem, hset, hshown, hp⟩
      · rintro ⟨f, i, hmem, hset, hshown, hp⟩
        exact ⟨_, ⟨f, i, hmem, hset, hshown, rfl⟩, hp⟩

/-- Merging is the rule. A literal is refused exactly for its fault, whether or not the cancel flag is up; without a
fault there is an answer unless the flag comes up, and what is answered is as the rule says. -/
theorem merge_rule (file : SourceFile) (z : Synthesizer) (l : CompositeLiteral) (resolved : ResolvedStruct)
    (s : Session) :
    (∀ fault, (merge file l resolved z s).1 = .error fault ↔
      l.Fault resolved.fields (file.slice l.typeSpan) fault) ∧
    ((∀ fault, ¬ l.Fault resolved.fields (file.slice l.typeSpan) fault) → true ∉ s.cancel →
      ∃ merged, (merge file l resolved z s).1 = .ok (some merged)) ∧
    ∀ merged, (merge file l resolved z s).1 = .ok (some merged) → merged.IsByRule file z l resolved := by
  refine ⟨fun fault => merge_eq_error, fun hnone hdown => ?_, fun merged => merge_isByRule⟩
  obtain ⟨read, hread⟩ := (merge_heedsFlag file l resolved z).heeded s
  cases hmerged : (merge file l resolved z s).1 with
  | error fault => exact absurd (merge_eq_error.mp hmerged) (hnone fault)
  | ok answer =>
    cases answer with
    | some merged => exact ⟨merged, rfl⟩
    | none =>
      refine absurd ?_ hdown
      rw [hread.cancel]
      exact List.mem_append_left _ (hread.ends.mp hmerged)

end

end LiteralFill
