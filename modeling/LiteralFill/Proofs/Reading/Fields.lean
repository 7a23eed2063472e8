import LiteralFill.Proofs.Reading.Alike

/-!
The lines of a struct type in two texts whose tokens correspond. A broken line is passed over alike in both;
when the texts are the same up to the closing brace, so are the fields that are found.
-/

namespace LiteralFill

open Reader

/-! ## Where the lines of a struct type end -/

section

variable {s : Lexed} (hm : s.IsMatched) {inner : Reader TypeExpr}
include hm

theorem le_afterSemicolon (limit first fuel i : Nat) :
    i ≤ afterSemicolon s limit first fuel i := by
  induction fuel generalizing i with
  | zero => exact Nat.le_refl _
  | succ fuel ih =>
    rw [afterSemicolon]
    by_cases hlt : i < limit
    · rw [if_pos hlt]
      have hnext := ih (i + 1)
      have hgroup := hm.lt_skipGroup hlt
      have hskip := ih (s.skipGroup i limit)
      split
      · exact Nat.le_succ _
      · split
        · exact Nat.le_refl _
        · omega
      · omega
      · omega
    · exact Nat.le_of_eq (if_neg hlt).symm

omit hm in
/-- The names of a field do not reach over the brace. -/
theorem readMoreNames_spec {rbrace : Nat} (hr : s.kindAt rbrace = some (.closer .brace)) (fuel : Nat)
    (names : List String) {c : Cursor} (h : c.index ≤ rbrace) :
    ∃ names' d, readMoreNames s fuel names c = (some names', d) ∧ c.index ≤ d.index ∧
      d.index ≤ rbrace := by
  induction fuel generalizing names c with
  | zero => exact ⟨_, _, rfl, Nat.le_refl _, h⟩
  | succ fuel ih =>
    rw [readMoreNames, peek_bind, peekAt_bind]
    split
    case isTrue hk =>
      simp only [Bool.and_eq_true, decide_eq_true_eq] at hk
      have hne : ∀ {j k}, s.kindAt j = some k → k ≠ .closer .brace → j ≠ rbrace := by
        rintro j k hj hne rfl
        exact hne (Option.some.inj (hj.symm.trans hr))
      have h1 := hne hk.1 (by simp)
      have h2 := hne hk.2 (by simp)
      obtain ⟨names', d, he, hle, hle'⟩ := ih (names ++ [s.nameAt (c.index + 1)])
        (c := ⟨c.index + 2, c.diagnostics⟩) (by simp only; omega)
      refine ⟨names', d, he, ?_, hle'⟩
      simp only at hle
      omega
    case isFalse => exact ⟨_, _, rfl, Nat.le_refl _, h⟩

omit hm in
theorem readMoreNames_le {fuel : Nat} {names names' : List String} {c d : Cursor}
    (h : readMoreNames s fuel names c = (some names', d)) : c.index ≤ d.index := by
  induction fuel generalizing names c with
  | zero =>
    cases h
    exact Nat.le_refl _
  | succ fuel ih =>
    rw [readMoreNames, peek_bind, peekAt_bind] at h
    split at h
    · rw [index_bind, skip_bind] at h
      have := ih h
      simp only at this
      omega
    · cases h
      exact Nat.le_refl _

omit hm in
/-- A tag is passed if it stands before the brace. -/
theorem readTag_le {rbrace : Nat} {c d : Cursor} {tag : Option String}
    (h : readTag s rbrace c = (some tag, d)) :
    c.index ≤ d.index ∧ (c.index ≤ rbrace → d.index ≤ rbrace) := by
  rw [readTag, index_bind] at h
  split at h
  case isTrue hk =>
    cases h
    simp only [Bool.and_eq_true, decide_eq_true_eq] at hk
    exact ⟨Nat.le_succ _, fun _ => hk.1⟩
  case isFalse =>
    cases h
    exact ⟨Nat.le_refl _, id⟩

omit hm in
/-- What a field begins with says how its names and type are read. -/
theorem readFieldHead_eq (rbrace : Nat) (c : Cursor) :
    readFieldHead s inner rbrace c =
      match s.kindAt c.index with
      | some .ident =>
        if isEmbeddedAt s rbrace c.index then (inner >>= fun t => give ([], t)) c
        else
          (readMoreNames s (rbrace - c.index) [s.nameAt c.index] >>= fun names =>
            inner >>= fun t => give (names, t)) ⟨c.index + 1, c.diagnostics⟩
      | some .star => (inner >>= fun t => give ([], .pointer t)) ⟨c.index + 1, c.diagnostics⟩
      | _ => (none, c) := by
  rw [readFieldHead, index_bind]
  cases s.kindAt c.index with
  | none => rfl
  | some kind =>
    cases kind with
    | ident =>
      simp only
      split
      · rfl
      · rfl
    | _ => rfl

/-- What is read within braces as a type ends there. -/
theorem read_le (hin : ReadsTypes s inner) {o rbrace : Nat} (hc : s.closerOf o = some rbrace)
    {c d : Cursor} {t : TypeExpr} (ho : o < c.index) (hle : c.index ≤ rbrace)
    (hr : inner c = (some t, d)) : d.index ≤ rbrace := by
  have hread := hin c
  rw [hr] at hread
  exact (hread.2 rfl).2.1.le_closer hm hc ho hle

/-- The head of a field ends within the braces around it. -/
theorem readFieldHead_le (hin : ReadsTypes s inner) {o rbrace : Nat} (hc : s.closerOf o = some rbrace)
    (hb : s.kindAt rbrace = some (.closer .brace)) {c d : Cursor} {head : List String × TypeExpr}
    (ho : o < c.index) (hlt : c.index < rbrace)
    (hr : readFieldHead s inner rbrace c = (some head, d)) : c.index < d.index ∧ d.index ≤ rbrace := by
  have hinner : ∀ {e : Cursor} {f : TypeExpr → List String × TypeExpr}, c.index ≤ e.index →
      e.index ≤ rbrace → (inner >>= fun t => give (f t)) e = (some head, d) →
      c.index < d.index ∧ d.index ≤ rbrace := by
    intro e f he hle hread
    rw [bind_apply] at hread
    rcases hi : inner e with ⟨result, d'⟩
    rw [hi] at hread
    cases result with
    | none => cases hread
    | some t =>
      cases hread
      have := hin.lt hi
      have := read_le hm hin hc (by omega) hle hi
      omega
  rw [readFieldHead_eq] at hr
  split at hr
  · split at hr
    · exact hinner (Nat.le_refl _) (by omega) hr
    · obtain ⟨names, e, he, hle, hle'⟩ := readMoreNames_spec hb (rbrace - c.index) [s.nameAt c.index]
        (c := ⟨c.index + 1, c.diagnostics⟩) (by simp only; omega)
      rw [bind_some he] at hr
      simp only at hle
      exact hinner (by omega) hle' hr
  · exact hinner (e := ⟨c.index + 1, c.diagnostics⟩) (by simp only; omega) (by simp only; omega) hr
  · cases hr

/-- Reading a field moves forward. -/
theorem readField_le (hin : ReadsTypes s inner) {o rbrace : Nat} (hc : s.closerOf o = some rbrace)
    (hb : s.kindAt rbrace = some (.closer .brace)) {c : Cursor} (ho : o < c.index)
    (hlt : c.index < rbrace) : c.index < (readField s inner rbrace c).2.index := by
  rw [readField, index_bind, optional_bind]
  rcases hr : readFieldHead s inner rbrace c with ⟨result, d⟩
  cases result with
  | none =>
    have := le_afterSemicolon hm rbrace (c.index + 1) (rbrace - (c.index + 1)) (c.index + 1)
    exact this
  | some head =>
    have hd := readFieldHead_le hm hin hc hb ho hlt hr
    have htag : ∃ tag e, readTag s rbrace d = (some tag, e) ∧ d.index ≤ e.index := by
      rw [readTag, index_bind]
      split
      · exact ⟨_, _, rfl, Nat.le_succ _⟩
      · exact ⟨_, _, rfl, Nat.le_refl _⟩
    obtain ⟨tag, e, he, hle⟩ := htag
    simp only [bind_some he, index_bind]
    split
    · rw [eat_bind]
      split
      · simp only [↓reduceIte, give_apply]
        omega
      · have := le_afterSemicolon hm rbrace e.index (rbrace - e.index) e.index
        simp only [Bool.false_eq_true, ↓reduceIte, report_bind, recover_bind, give_apply]
        omega
    · simp only [give_apply]
      omega

end

/-! ## Fields in step -/

namespace Alignment

variable {s s' : Lexed} {A : Alignment s s'} (hm : s.IsMatched) {limit limit' : Nat}
  (hl : A.pairs limit limit')
include hm hl

/-- A broken line is passed over alike, however many steps are allowed for it. -/
theorem afterSemicolon_alike {first first' fuel fuel' i i' : Nat} (hf : A.pairs first first')
    (hi : A.pairs i i') (h : limit ≤ i + fuel) (h' : limit' ≤ i' + fuel') :
    A.pairs (afterSemicolon s limit first fuel i) (afterSemicolon s' limit' first' fuel' i') := by
  induction fuel generalizing fuel' i i' with
  | zero =>
    have hle := (A.le hl hi).mp (by omega)
    cases fuel' with
    | zero => exact hi
    | succ fuel' =>
      rw [afterSemicolon, afterSemicolon, if_neg (by omega)]
      exact hi
  | succ fuel ih =>
    by_cases hlt : i < limit
    · have hlt' := (A.order hi hl).mp hlt
      obtain ⟨fuel', rfl⟩ : ∃ n, fuel' = n + 1 := ⟨fuel' - 1, by omega⟩
      rw [afterSemicolon, afterSemicolon, if_pos hlt, if_pos hlt', A.kind hi]
      have hnext : s.kindAt i ≠ some (.opener .brace) →
          A.pairs (afterSemicolon s limit first fuel (i + 1))
            (afterSemicolon s' limit' first' fuel' (i' + 1)) := fun hk =>
        ih (A.next hi hk) (by omega) (by omega)
      cases hk : s.kindAt i with
      | none => exact hnext (by simp [hk])
      | some kind =>
        cases kind with
        | semicolon => exact A.next_of_kind hi hk (by decide)
        | closer b =>
          by_cases hfirst : first < i
          · simp only [hfirst, (A.order hf hi).mp hfirst, ↓reduceIte]
            exact hi
          · have hfirst' : ¬ first' < i' := fun h => hfirst ((A.order hf hi).mpr h)
            simp only [hfirst, hfirst', ↓reduceIte]
            exact hnext (by simp [hk])
        | opener b =>
          have hgroup := hm.lt_skipGroup hlt
          have hskip := A.skipGroup hm hi hl
          have hgroup' := (A.order hi hskip).mp hgroup
          exact ih hskip (by omega) (by omega)
        | _ => exact hnext (by simp [hk])
    · have hlt' : ¬ i' < limit' := fun h => hlt ((A.order hi hl).mpr h)
      rw [afterSemicolon, if_neg hlt]
      cases fuel' with
      | zero => exact hi
      | succ fuel' =>
        rw [afterSemicolon, if_neg hlt']
        exact hi

theorem recover_alike {i i' : Nat} (hi : A.pairs i i') (ds ds' : List Diagnostic) :
    A.Alike (fun _ _ _ => True) (recover s limit ⟨i, ds⟩) (recover s' limit' ⟨i', ds'⟩) :=
  .gave (afterSemicolon_alike hm hl hi hi (by omega) (by omega)) trivial

omit hm in
theorem endsField_alike {i i' : Nat} (hi : A.pairs i i') :
    endsField s' limit' i' = endsField s limit i := by
  rw [endsField, endsField, A.kind hi]
  have := A.le hl hi
  by_cases h : limit ≤ i
  · simp [h, this.mp h]
  · have h' : ¬ limit' ≤ i' := fun h' => h (this.mpr h')
    simp [h, h']

theorem isEmbeddedAt_alike {i i' : Nat} (hi : A.pairs i i') (hk : s.kindAt i = some .ident) :
    isEmbeddedAt s' limit' i' = isEmbeddedAt s limit i := by
  have h1 := A.next_of_kind hi hk (by decide)
  rw [isEmbeddedAt, isEmbeddedAt, A.kind h1]
  split
  · rfl
  · cases hc : s.closerOf (i + 1) with
    | none => rw [A.close_none h1 hc]
    | some close =>
      obtain ⟨close', hc', -, hafter⟩ := A.after_close hm h1 hc
      rw [hc']
      exact endsField_alike hl hafter
  · exact endsField_alike hl h1

omit hm hl

theorem readMoreNames_alike (fuel : Nat) (names : List String) (c c' : Cursor)
    (hc : A.pairs c.index c'.index) :
    A.Alike (fun _ ns ns' => ns' = ns) (readMoreNames s fuel names c)
      (readMoreNames s' fuel names c') := by
  induction fuel generalizing names c c' with
  | zero => exact .gave hc rfl
  | succ fuel ih =>
    rw [readMoreNames, readMoreNames, peek_bind, peek_bind, peekAt_bind, peekAt_bind, A.kind hc]
    by_cases hk : s.kindAt c.index = some .comma
    · have h1 := A.next_of_kind hc hk (by decide)
      rw [A.kind h1]
      split
      case isTrue h =>
        simp only [Bool.and_eq_true, decide_eq_true_eq] at h
        simp only [index_bind, skip_bind, A.name h1]
        exact ih _ _ _ (A.next_of_kind h1 h.2 (by decide))
      case isFalse => exact .gave hc rfl
    · simp only [hk, decide_false, Bool.false_and, Bool.false_eq_true, ↓reduceIte]
      exact .gave hc rfl

theorem readTag_alike {c c' : Cursor} (hl : A.pairs limit limit') (hc : A.pairs c.index c'.index) :
    A.Alike (fun _ tag tag' => tag' = tag) (readTag s limit c) (readTag s' limit' c') := by
  rw [readTag, readTag, index_bind, index_bind, A.kind hc, A.name hc]
  have hlt : decide (c'.index < limit') = decide (c.index < limit) := by
    simp [A.order hc hl]
  rw [hlt]
  split
  case isTrue h =>
    refine .gave (A.next hc fun hk => ?_) rfl
    simp [hk] at h
  case isFalse => exact .gave hc rfl

section

variable {inner inner' : Reader TypeExpr} {o rbrace rbrace' : Nat} (hin : ReadsTypes s inner)
  (ha : A.AlikeAfter o inner inner') (ho : s.closerOf o = some rbrace)
  (hb : s.kindAt rbrace = some (.closer .brace)) (hr : A.pairs rbrace rbrace') (hx : A.exact rbrace)
include hm ha hr hx

/-- A field head in the same text: the same names and the same type. -/
def sameHead (A : Alignment s s') (j : Nat) (h h' : List String × TypeExpr) : Prop :=
  h'.1 = h.1 ∧ A.sameType j h.2 h'.2

theorem readFieldHead_alike {c c' : Cursor} (hi : o < c.index) (hc : A.pairs c.index c'.index) :
    A.Alike A.sameHead (readFieldHead s inner rbrace c) (readFieldHead s' inner' rbrace' c') := by
  have hinner : ∀ {names : List String} {d d' : Cursor}, o < d.index → A.pairs d.index d'.index →
      A.Alike A.sameHead ((inner >>= fun t => give (names, t)) d)
        ((inner' >>= fun t => give (names, t)) d') := fun hd hp =>
    (ha _ _ hd hp).bind fun _ _ _ _ _ he ht => .gave he ⟨rfl, ht⟩
  rw [readFieldHead_eq, readFieldHead_eq, A.kind hc]
  split
  case h_1 hk =>
    rw [isEmbeddedAt_alike hm hr hc hk, A.name hc, A.exact_sub hc hr hx]
    split
    · exact hinner hi hc
    · refine (readMoreNames_alike _ _ ⟨c.index + 1, _⟩ ⟨c'.index + 1, _⟩
        (A.next_of_kind hc hk (by decide))).bind ?_
      rintro names _ d d' hd hp rfl
      exact hinner (Nat.lt_of_lt_of_le (Nat.lt_succ_of_lt hi) (readMoreNames_le hd)) hp
  case h_2 hk =>
    refine (ha ⟨c.index + 1, _⟩ ⟨c'.index + 1, _⟩ (Nat.lt_succ_of_lt hi)
      (A.next_of_kind hc hk (by decide))).bind fun t t' d d' _ hp ht => .gave hp ⟨rfl, rfl, fun he => ?_⟩
    rw [ht.2 he, TypeExpr.move]
  case h_3 => exact .failed hc

include hin ho hb

/-- A field in the same text: the same up to positions. -/
theorem readField_alike {c c' : Cursor} (hi : o < c.index) (hlt : c.index < rbrace)
    (hc : A.pairs c.index c'.index) :
    A.Alike (fun _ f f' => f'.toList = TypeExpr.moveFields A.move f.toList)
      (readField s inner rbrace c) (readField s' inner' rbrace' c') := by
  rw [readField, readField, index_bind, index_bind, optional_bind, optional_bind]
  have hlike := readFieldHead_alike hm ha hr hx hi hc
  have hle := @readFieldHead_le s hm inner hin o rbrace ho hb c
  generalize readFieldHead s inner rbrace c = r at hlike hle
  generalize readFieldHead s' inner' rbrace' c' = r' at hlike
  cases hlike with
  | failed hp =>
    have hnext := A.next_of_exact hc (A.exact_of_le hx hlt)
    simp only [goTo_bind, report_bind]
    exact (recover_alike hm hr hnext _ _).bind fun _ _ _ _ _ hd _ => .gave hd rfl
  | @gave d d' head head' hp hhead =>
    obtain ⟨hd1, hd2⟩ := hle hi hlt rfl
    simp only
    refine (readTag_alike hr hp).bind ?_
    rintro _ tag e e' he hp' rfl
    have hde := readTag_le he
    have hfield : A.exact e.index →
        (⟨head'.1, head'.2, tag, ⟨s'.startAt c'.index, s'.stopBefore e'.index⟩⟩ :
          FieldDecl TypeExpr) =
        ⟨head.1, head.2.move A.move, tag,
          ⟨A.move (s.startAt c.index), A.move (s.stopBefore e.index)⟩⟩ := fun hxe => by
      have hd := hhead.2.2 (A.exact_of_le hxe hde.1)
      rw [hhead.1, hd, A.start hc hp' (by omega) hxe, A.stop hc hp' (by omega) hxe]
    have hfield := hfield (A.exact_of_le hx (hde.2 hd2))
    simp only [index_bind]
    rw [hfield]
    by_cases hend : e.index < rbrace
    · have hend' := (A.order hp' hr).mp hend
      simp only [hend, hend', ↓reduceIte, eat_bind, A.kind hp']
      by_cases hk : s.kindAt e.index = some .semicolon
      · simp only [hk, ↓reduceIte]
        exact .gave (A.next_of_kind hp' hk (by decide)) rfl
      · simp only [hk, ↓reduceIte, Bool.false_eq_true, report_bind]
        exact (recover_alike hm hr hp' _ _).bind fun _ _ _ _ _ hd _ => .gave hd rfl
    · have hend' : ¬ e'.index < rbrace' := fun h => hend ((A.order hp' hr).mpr h)
      simp only [hend, hend', ↓reduceIte]
      exact .gave hp' rfl

theorem readFields_alike (fuel : Nat) {fields fields' : List (FieldDecl TypeExpr)}
    (hfields : fields' = TypeExpr.moveFields A.move fields) (c c' : Cursor) (hi : o < c.index)
    (hc : A.pairs c.index c'.index) :
    A.Alike (fun _ fs fs' => fs' = TypeExpr.moveFields A.move fs)
      (readFields s inner rbrace fuel fields c) (readFields s' inner' rbrace' fuel fields' c') := by
  induction fuel generalizing fields fields' c c' with
  | zero => exact .gave hc hfields
  | succ fuel ih =>
    rw [readFields, readFields, index_bind, index_bind]
    by_cases hlt : c.index < rbrace
    · simp only [hlt, (A.order hc hr).mp hlt, ↓reduceIte, eat_bind, A.kind hc]
      by_cases hk : s.kindAt c.index = some .semicolon
      · simp only [hk, ↓reduceIte]
        exact ih hfields _ _ (Nat.lt_succ_of_lt hi) (A.next_of_kind hc hk (by decide))
      · simp only [hk, ↓reduceIte, Bool.false_eq_true]
        refine (readField_alike hm hin ha ho hb hr hx hi hlt hc).bind
          fun field field' d d' hd hp hf => ?_
        have hle := readField_le hm hin ho hb hi hlt
        rw [hd] at hle
        simp only at hle
        cases field with
        | none =>
          cases field' with
          | none => exact ih hfields _ _ (by omega) hp
          | some f' => simp [TypeExpr.moveFields] at hf
        | some f =>
          cases field' with
          | none => simp [TypeExpr.moveFields] at hf
          | some f' =>
            refine ih ?_ _ _ (by omega) hp
            rw [TypeExpr.moveFields_append, hfields]
            exact congrArg _ hf
    · have hlt' : ¬ c'.index < rbrace' := fun h => hlt ((A.order hc hr).mpr h)
      simp only [hlt, hlt', ↓reduceIte]
      exact .gave hc hfields

end

end Alignment

end LiteralFill
