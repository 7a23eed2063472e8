import LiteralFill.Proofs.Reading.Declarations

/-!
Declarations in two texts whose tokens correspond: they end at corresponding places, or beyond where the
tokens stop corresponding. Only a constant without a value can lead there, since the search for its `=`
enters braces.
-/

namespace LiteralFill

open Reader

namespace Alignment

variable {s s' : Lexed} {A : Alignment s s'} (hm : s.IsMatched)

/-- Two readings that end at corresponding places, or the first of them where nothing corresponds. -/
def Follows (A : Alignment s s') {α β : Type} (r : Option α × Cursor) (r' : Option β × Cursor) : Prop :=
  A.pairs r.2.index r'.2.index ∨ A.lost r.2.index

theorem Alike.follows {α : Type} {R : Nat → α → α → Prop} {r r' : Option α × Cursor}
    (h : A.Alike R r r') : A.Follows r r' := by
  cases h with
  | failed h => exact .inl h
  | gave h => exact .inl h

/-- Whether something was read, and nothing of what it was. -/
def anything {α : Type} (_ : Nat) (_ _ : α) : Prop := True

/-- Readers that go on alike, whether there is a value or not. -/
theorem optional_alike {α β : Type} {R : Nat → α → α → Prop} {S : Nat → β → β → Prop} {r r' : Reader α}
    {f f' : Option α → Reader β} {c c' : Cursor} (h : A.Alike R (r c) (r' c'))
    (hnone : ∀ d d' : Cursor, A.pairs d.index d'.index → A.Alike S (f none d) (f' none d'))
    (hsome : ∀ a a' (d d' : Cursor), A.pairs d.index d'.index → A.Alike S (f (some a) d) (f' (some a') d')) :
    A.Alike S ((r.optional >>= f) c) ((r'.optional >>= f') c') := by
  rw [optional_bind, optional_bind]
  generalize r c = x at h
  generalize r' c' = x' at h
  cases h with
  | failed h => exact hnone _ _ h
  | gave h => exact hsome _ _ _ _ h

include hm

theorem orRecover_alike {α : Type} {R : Nat → α → α → Prop} {limit limit' : Nat} {r r' : Reader α}
    {c c' : Cursor} (hl : A.pairs limit limit') (h : A.Alike R (r c) (r' c')) :
    A.Alike anything (orRecover s limit r c) (orRecover s' limit' r' c') := by
  exact optional_alike h (fun _ _ hd => (recover_alike hm hl hd _ _).bind fun _ _ _ _ _ hd _ => .gave hd trivial)
    fun _ _ _ _ hd => .gave hd trivial

/-! ## Imports and types -/

omit hm

theorem readImport_alike {c c' : Cursor} (hc : A.pairs c.index c'.index) :
    A.Alike anything (readImport s c) (readImport s' c') := by
  have hpath : ∀ {first first' : Nat} {alias? alias?' : Option String} {d d' : Cursor},
      A.pairs d.index d'.index →
      A.Alike anything
        ((do
          let i ← index
          if s.kindAt i = some .string || s.kindAt i = some .rawString then do
            skip 1
            give (ImportSpec.mk alias? (String.ofList (unquote (s.nameAt i).toList))
              ⟨s.startAt first, s.stopAt i⟩)
          else do
            report s "expected import path"
            fail : Reader ImportSpec) d)
        ((do
          let i ← index
          if s'.kindAt i = some .string || s'.kindAt i = some .rawString then do
            skip 1
            give (ImportSpec.mk alias?' (String.ofList (unquote (s'.nameAt i).toList))
              ⟨s'.startAt first', s'.stopAt i⟩)
          else do
            report s' "expected import path"
            fail : Reader ImportSpec) d') := by
    intro first first' alias? alias?' d d' hd
    rw [index_bind, index_bind, A.kind hd]
    split
    case isTrue hk =>
      refine .gave (A.next hd fun hb => ?_) trivial
      simp [hb] at hk
    case isFalse => exact .failed hd
  unfold readImport
  rw [index_bind, index_bind, A.kind hc]
  cases hk : s.kindAt c.index with
  | none => exact hpath hc
  | some kind =>
    cases kind with
    | ident => exact hpath (d := ⟨c.index + 1, c.diagnostics⟩) (A.next_of_kind hc hk (by decide))
    | dot => exact hpath (d := ⟨c.index + 1, c.diagnostics⟩) (A.next_of_kind hc hk (by decide))
    | _ => exact hpath hc

theorem beginsParams_alike {i i' : Nat} (hi : A.pairs i i') (hk : s.kindAt i = some (.opener .square)) :
    beginsParams s' i' = beginsParams s i := by
  have h1 := A.next_of_kind hi hk (by decide)
  rw [beginsParams, beginsParams, A.kind h1]
  by_cases hident : s.kindAt (i + 1) = some .ident
  · rw [A.kind (A.next_of_kind h1 hident (by decide))]
  · simp [hident]

include hm

theorem readParams_alike {c c' : Cursor} (hc : A.pairs c.index c'.index) :
    A.Alike anything (readParams s c) (readParams s' c') := by
  unfold readParams
  rw [index_bind, index_bind, A.kind hc]
  by_cases hk : s.kindAt c.index = some (.opener .square)
  · rw [beginsParams_alike hc hk]
    split
    · cases hclose : s.closerOf c.index with
      | none =>
        rw [A.close_none hc hclose]
        exact .gave (A.next_of_kind hc hk (by decide)) trivial
      | some close =>
        obtain ⟨close', hclose', -, hafter⟩ := A.after_close hm hc hclose
        rw [hclose']
        exact .gave hafter trivial
    · exact .gave hc trivial
  · simp only [hk, decide_false, Bool.false_and, Bool.false_eq_true, ↓reduceIte]
    exact .gave hc trivial

theorem readTypeSpec_alike (hm' : s'.IsMatched) {scope scope' : Option Span} {c c' : Cursor}
    (hc : A.pairs c.index c'.index) :
    A.Alike anything (readTypeSpec s scope c) (readTypeSpec s' scope' c') := by
  unfold readTypeSpec
  rw [index_bind, index_bind, A.kind hc]
  by_cases hk : s.kindAt c.index = some .ident
  · simp only [hk, ↓reduceIte, skip_bind]
    refine (readParams_alike hm (c := ⟨c.index + 1, _⟩) (A.next_of_kind hc hk (by decide))).bind
      fun params params' d d' _ hd _ => ?_
    rw [eat_bind, eat_bind, A.kind hd]
    by_cases heq : s.kindAt d.index = some .assign
    · simp only [heq, ↓reduceIte]
      exact optional_alike (readType_alike hm hm' _ _ (A.next_of_kind hd heq (by decide))) (fun _ _ h => .failed h)
        fun _ _ _ _ h => .gave h trivial
    · simp only [heq, ↓reduceIte]
      exact optional_alike (readType_alike hm hm' _ _ hd) (fun _ _ h => .failed h) fun _ _ _ _ h => .gave h trivial
  · simp only [hk, ↓reduceIte]
    exact .failed hc

/-! ## Constants -/

omit hm

theorem readConstNames_alike (fuel fuel' : Nat) {names names' : List String} {c c' : Cursor}
    (hnames : names' = names) (hc : A.pairs c.index c'.index) (h : s.size < c.index + fuel)
    (h' : s'.size < c'.index + fuel') :
    A.Alike (fun _ ns ns' => ns' = ns) (readConstNames s fuel names c)
      (readConstNames s' fuel' names' c') := by
  have hpast : ∀ {t : Lexed} {n : Nat} {ms : List String} {d : Cursor}, t.kindAt d.index = none →
      readConstNames t n ms d = (some ms, d) := by
    intro t n ms d hk
    cases n with
    | zero => rfl
    | succ n =>
      unfold readConstNames
      rw [index_bind, eat_bind, hk]
      rfl
  induction fuel generalizing fuel' names names' c c' with
  | zero =>
    have hk := kindAt_none (s := s) (i := c.index) (by omega)
    rw [hpast hk, hpast ((A.kind hc).trans hk)]
    exact .gave hc hnames
  | succ fuel ih =>
    cases fuel' with
    | zero =>
      have hk := kindAt_none (s := s') (i := c'.index) (by omega)
      rw [hpast hk, hpast ((A.kind hc).symm.trans hk)]
      exact .gave hc hnames
    | succ fuel' =>
      unfold readConstNames
      rw [index_bind, index_bind, eat_bind, eat_bind, A.kind hc]
      by_cases hk : s.kindAt c.index = some .ident
      · have h1 := A.next_of_kind hc hk (by decide)
        simp only [hk, ↓reduceIte, eat_bind, A.kind h1, A.name hc, hnames]
        by_cases hcomma : s.kindAt (c.index + 1) = some .comma
        · simp only [hcomma, ↓reduceIte]
          exact ih _ rfl (A.next_of_kind h1 hcomma (by decide)) (by simp only; omega) (by simp only; omega)
        · simp only [hcomma, ↓reduceIte, Bool.false_eq_true]
          exact .gave h1 rfl
      · simp only [hk, ↓reduceIte, Bool.false_eq_true]
        exact .gave hc hnames

/-- The search enters brackets, and so it may get lost. -/
theorem firstIndex_follows {limit limit' : Nat} (hl : A.pairs limit limit') (p : TokenKind → Bool)
    {fuel fuel' i i' : Nat} (hi : A.pairs i i') (h : limit ≤ i + fuel) (h' : limit' ≤ i' + fuel') :
    A.pairs (firstIndex s limit p fuel i) (firstIndex s' limit' p fuel' i') ∨
      A.lost (firstIndex s limit p fuel i) := by
  induction fuel generalizing fuel' i i' with
  | zero =>
    have hle := (A.le hl hi).mp (by omega)
    left
    cases fuel' with
    | zero => exact hi
    | succ fuel' =>
      have hlt : ¬ i' < limit' := by omega
      simp only [firstIndex, hlt, decide_false, Bool.false_and, Bool.false_eq_true, ↓reduceIte]
      exact hi
  | succ fuel ih =>
    by_cases hlt : i < limit
    · have hlt' := (A.order hi hl).mp hlt
      obtain ⟨fuel', rfl⟩ : ∃ n, fuel' = n + 1 := ⟨fuel' - 1, by omega⟩
      simp only [firstIndex, hlt, hlt', decide_true, Bool.true_and, A.kind hi]
      split
      · rcases A.enter hi with hnext | hlost
        · exact ih hnext (by omega) (by omega)
        · exact .inr (A.lost_of_le hlost (le_firstIndex _ _ _ _))
      · exact .inl hi
    · have hlt' : ¬ i' < limit' := fun h => hlt ((A.order hi hl).mpr h)
      left
      cases fuel' with
      | zero =>
        simp only [firstIndex, hlt, decide_false, Bool.false_and, Bool.false_eq_true, ↓reduceIte]
        exact hi
      | succ fuel' =>
        simp only [firstIndex, hlt, hlt', decide_false, Bool.false_and, Bool.false_eq_true,
          ↓reduceIte]
        exact hi

include hm

theorem afterValue_alike {limit limit' : Nat} (hl : A.pairs limit limit') {fuel fuel' i i' : Nat}
    (hi : A.pairs i i') (h : limit ≤ i + fuel) (h' : limit' ≤ i' + fuel') :
    A.pairs (afterValue s limit fuel i) (afterValue s' limit' fuel' i') := by
  induction fuel generalizing fuel' i i' with
  | zero =>
    have hle := (A.le hl hi).mp (by omega)
    cases fuel' with
    | zero => exact hi
    | succ fuel' =>
      rw [afterValue, afterValue, if_neg (by omega)]
      exact hi
  | succ fuel ih =>
    by_cases hlt : i < limit
    · have hlt' := (A.order hi hl).mp hlt
      obtain ⟨fuel', rfl⟩ : ∃ n, fuel' = n + 1 := ⟨fuel' - 1, by omega⟩
      rw [afterValue, afterValue, if_pos hlt, if_pos hlt', A.kind hi]
      have hnext : s.kindAt i ≠ some (.opener .brace) →
          A.pairs (afterValue s limit fuel (i + 1)) (afterValue s' limit' fuel' (i' + 1)) :=
        fun hk => ih (A.next hi hk) (by omega) (by omega)
      cases hk : s.kindAt i with
      | none => exact hnext (by simp [hk])
      | some kind =>
        cases kind with
        | comma => exact hi
        | semicolon => exact hi
        | opener b =>
          have hgroup := hm.lt_skipGroup hlt
          have hskip := A.skipGroup hm hi hl
          have hgroup' := (A.order hi hskip).mp hgroup
          exact ih hskip (by omega) (by omega)
        | _ => exact hnext (by simp [hk])
    · have hlt' : ¬ i' < limit' := fun h => hlt ((A.order hi hl).mpr h)
      rw [afterValue, if_neg hlt]
      cases fuel' with
      | zero => exact hi
      | succ fuel' =>
        rw [afterValue, if_neg hlt']
        exact hi

omit hm in
/-- Past the last token there are no values. -/
theorem readConstValues_past {fuel : Nat} {values : List (Option Nat)} {c : Cursor}
    (h : s.size < c.index) :
    ∃ vs, readConstValues s s.size fuel values c = (some vs, c) := by
  cases fuel with
  | zero => exact ⟨values, rfl⟩
  | succ fuel =>
    have hzero : s.size - c.index = 0 := by omega
    unfold readConstValues
    simp only [index_bind, goTo_bind, hzero, afterValue, eat_bind,
      kindAt_none (s := s) (i := c.index) (by omega)]
    exact ⟨_, rfl⟩

theorem readConstValues_alike {fuel fuel' : Nat} {values values' : List (Option Nat)} {c c' : Cursor}
    (hc : A.pairs c.index c'.index) (h : s.size < c.index + fuel) (h' : s'.size < c'.index + fuel') :
    A.Alike anything (readConstValues s s.size fuel values c)
      (readConstValues s' s'.size fuel' values' c') := by
  have hend : ∀ {n n' : Nat} {vs vs' : List (Option Nat)} {d d' : Cursor},
      A.pairs d.index d'.index → s.size < d.index →
      A.Alike anything (readConstValues s s.size n vs d) (readConstValues s' s'.size n' vs' d') := by
    intro n n' vs vs' d d' hd hpast
    obtain ⟨ws, hws⟩ := @readConstValues_past s n vs d hpast
    obtain ⟨ws', hws'⟩ := @readConstValues_past s' n' vs' d' ((A.order A.size hd).mp hpast)
    rw [hws, hws']
    exact .gave hd trivial
  induction fuel generalizing fuel' values values' c c' with
  | zero => exact hend hc (by omega)
  | succ fuel ih =>
    by_cases hpast : s.size < c.index
    · exact hend hc hpast
    · have hpast' : ¬ s'.size < c'.index := fun h => hpast ((A.order A.size hc).mpr h)
      obtain ⟨fuel', rfl⟩ : ∃ n, fuel' = n + 1 := ⟨fuel' - 1, by omega⟩
      have hstop := @afterValue_alike _ _ A hm _ _ A.size (s.size - c.index) (s'.size - c'.index) _ _
        hc (by omega) (by omega)
      have hle := le_afterValue hm s.size (s.size - c.index) c.index
      unfold readConstValues
      simp only [index_bind, goTo_bind, eat_bind, A.kind hstop]
      by_cases hk : s.kindAt (afterValue s s.size (s.size - c.index) c.index) = some .comma
      · simp only [hk, ↓reduceIte]
        have hnext := A.next_of_kind hstop hk (by decide)
        have hlt := (A.order hc hnext).mp (by omega)
        exact ih hnext (by simp only; omega) (by simp only; omega)
      · simp only [hk, ↓reduceIte, Bool.false_eq_true]
        exact .gave hstop trivial

/-- Only the search for the `=` of a constant can get lost. -/
theorem readConstSpec_follows {scope scope' : Option Span} {c c' : Cursor}
    (hc : A.pairs c.index c'.index) :
    A.Follows (readConstSpec s scope s.size c) (readConstSpec s' scope' s'.size c') := by
  unfold readConstSpec
  rw [index_bind, index_bind]
  have hnames := readConstNames_alike (s.size - c.index + 1) (s'.size - c'.index + 1)
    (rfl : ([] : List String) = []) hc (by omega) (by omega)
  rw [bind_apply, bind_apply]
  generalize readConstNames s (s.size - c.index + 1) [] c = x at hnames
  generalize readConstNames s' (s'.size - c'.index + 1) [] c' = x' at hnames
  cases hnames with
  | failed hd => exact .inl hd
  | @gave d d' names names' hd hns =>
    subst hns
    simp only
    by_cases hempty : names'.isEmpty
    · simp only [hempty, ↓reduceIte, report_bind]
      exact .inl (afterSemicolon_alike hm A.size hd hd (by omega) (by omega))
    · simp only [hempty, ↓reduceIte, Bool.false_eq_true, index_bind, goTo_bind]
      rcases firstIndex_follows A.size (fun k => k == .assign || k == .semicolon) hd
          (by omega : s.size ≤ d.index + (s.size - d.index))
          (by omega : s'.size ≤ d'.index + (s'.size - d'.index)) with hp | hlost
      · have hle := le_firstIndex (s := s) s.size (fun k => k == .assign || k == .semicolon)
          (s.size - d.index) d.index
        have hle' := (A.le hd hp).mp hle
        rw [eat_bind, eat_bind]
        simp only [A.kind hp]
        split
        case isTrue hk =>
          have hvalues := @readConstValues_alike _ _ A hm (s.size - d.index + 1)
            (s'.size - d'.index + 1) [] [] ⟨_, d.diagnostics⟩ ⟨_, d'.diagnostics⟩
            (A.next_of_kind hp hk (by decide)) (by simp only; omega) (by simp only; omega)
          refine (hvalues.bind fun _ _ e e' _ he _ => ?_).follows (R := anything)
          exact (recover_alike hm A.size he _ _).bind fun _ _ _ _ _ hd _ => .gave hd trivial
        case isFalse => exact .inl (afterSemicolon_alike hm A.size hp hp (by omega) (by omega))
      · exact .inr (A.lost_of_le hlost (readConstTail_forward hm scope s.size d.index names' ⟨_, d.diagnostics⟩))

/-! ## Declarations -/

theorem readDeclarations_follows {α β : Type} {spec : Nat → Reader (List α)}
    {spec' : Nat → Reader (List β)} (hg : ∀ limit, AlwaysGives (spec limit))
    (hg' : ∀ limit, AlwaysGives (spec' limit))
    (h : ∀ c c', A.pairs c.index c'.index → A.Follows (spec s.size c) (spec' s'.size c'))
    {c c' : Cursor} (hc : A.pairs c.index c'.index) {w : Keyword}
    (hk : s.kindAt c.index = some (.keyword w)) :
    A.Follows (readDeclarations s spec c) (readDeclarations s' spec' c') := by
  have h1 := A.next_of_kind hc hk (by simp)
  rcases readDeclarations_index hg c with ⟨hp, he⟩ | ⟨hp, he⟩
  · rcases readDeclarations_index hg' c' with ⟨-, he'⟩ | ⟨hp', -⟩
    · rw [Follows, he, he']
      left
      cases hclose : s.closerOf (c.index + 1) with
      | none =>
        rw [A.close_none h1 hclose]
        have hnone : s.kindAt s.size = none := kindAt_none (Nat.le_refl _)
        exact A.next A.size (by simp [hnone])
      | some close =>
        obtain ⟨close', hclose', -, hafter⟩ := A.after_close hm h1 hclose
        rw [hclose']
        exact hafter
    · exact absurd ((A.kind h1).trans hp) hp'
  · rcases readDeclarations_index hg' c' with ⟨hp', -⟩ | ⟨-, he'⟩
    · exact absurd ((A.kind h1).symm.trans hp') hp
    · rw [he, he']
      exact h _ _ h1

theorem readImports_follows {c c' : Cursor} (hc : A.pairs c.index c'.index) {w : Keyword}
    (hk : s.kindAt c.index = some (.keyword w)) : A.Follows (readImports s c) (readImports s' c') := by
  unfold readImports
  apply readDeclarations_follows hm (fun _ => orRecover_gives _ _) (fun _ => orRecover_gives _ _) _ hc hk
  intro d d' hd
  exact (orRecover_alike hm A.size (readImport_alike hd)).follows

theorem readTypes_follows (hm' : s'.IsMatched) {scope scope' : Option Span} {c c' : Cursor}
    (hc : A.pairs c.index c'.index) {w : Keyword} (hk : s.kindAt c.index = some (.keyword w)) :
    A.Follows (readTypes s scope c) (readTypes s' scope' c') := by
  unfold readTypes
  apply readDeclarations_follows hm (fun _ => orRecover_gives _ _) (fun _ => orRecover_gives _ _) _ hc hk
  intro d d' hd
  exact (orRecover_alike hm A.size (readTypeSpec_alike hm hm' hd)).follows

theorem readConsts_follows {scope scope' : Option Span} {c c' : Cursor}
    (hc : A.pairs c.index c'.index) {w : Keyword} (hk : s.kindAt c.index = some (.keyword w)) :
    A.Follows (readConsts s scope c) (readConsts s' scope' c') := by
  unfold readConsts
  apply readDeclarations_follows hm (readConstSpec_gives _) (readConstSpec_gives _) _ hc hk
  intro d d' hd
  exact readConstSpec_follows hm hd

end Alignment

end LiteralFill
