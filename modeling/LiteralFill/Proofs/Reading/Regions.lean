import LiteralFill.Proofs.Bodies
import LiteralFill.Proofs.Unpaired

/-!
Readers between brackets. What begins between two brackets that belong to each other is read before the closing
one, whether the reading succeeds or fails and however broken the tokens are; so is what begins behind an opener
that stays open, up to the end of the tokens. A type takes brackets in pairs.
-/

namespace LiteralFill

open Reader

/-! ## Regions -/

/-- Brackets that open from `first` on and before `limit` are closed before `limit` or not at all, and at `limit`
there is a closer, or no token. -/
structure Lexed.IsRegion (s : Lexed) (first limit : Nat) : Prop where
  le_size : limit ≤ s.size
  closer : ∀ k, s.kindAt limit = some k → ∃ b, k = .closer b
  closed : ∀ i c, first ≤ i → i < limit → s.closerOf i = some c → c < limit

namespace Lexed

variable {s : Lexed} (hm : s.IsMatched)
include hm

/-- Between two brackets that belong to each other. -/
theorem IsMatched.isRegion {o c : Nat} (hc : s.closerOf o = some c) : s.IsRegion (o + 1) c where
  le_size := Nat.le_of_lt (hm.closer_spec hc).2.1
  closer k hk := by
    obtain ⟨-, -, b, -, hclose⟩ := hm.closer_spec hc
    rw [hclose] at hk
    exact ⟨b, (Option.some.inj hk).symm⟩
  closed i d hoi hic hd := by
    obtain ⟨b, -, hopen, -⟩ := hm.opener_of_closerOf hd
    obtain ⟨d', hd', hd''⟩ := hm.inner hc hoi hic hopen
    rw [hd] at hd''
    cases hd''
    exact hd'

/-- From any token to the last one. -/
theorem IsMatched.isRegion_size (first : Nat) : s.IsRegion first s.size where
  le_size := Nat.le_refl _
  closer _ hk := absurd (kindAt_lt hk) (Nat.lt_irrefl _)
  closed _ _ _ _ hc := (hm.closer_spec hc).2.1

/-- Behind an opener, up to its closer if it has one. -/
theorem IsMatched.isRegion_getD (o : Nat) : s.IsRegion (o + 1) ((s.closerOf o).getD s.size) := by
  cases hc : s.closerOf o with
  | none => exact hm.isRegion_size _
  | some c => exact hm.isRegion hc

omit hm

namespace IsRegion

variable {first limit i : Nat} (h : s.IsRegion first limit)
include h

/-- A token that closes nothing stands before the end. -/
theorem lt_of_kind {k : TokenKind} (hk : s.kindAt i = some k) (hne : ∀ b, k ≠ .closer b) (hi : i ≤ limit) :
    i < limit := by
  refine Nat.lt_of_le_of_ne hi ?_
  rintro rfl
  obtain ⟨b, rfl⟩ := h.closer k hk
  exact hne b rfl

theorem skipGroup_le (hfirst : first ≤ i) (hi : i < limit) : s.skipGroup i limit ≤ limit := by
  unfold skipGroup
  cases hc : s.closerOf i with
  | none => exact Nat.le_refl _
  | some c => exact h.closed i c hfirst hi hc

end IsRegion

end Lexed

/-! ## Brackets in pairs -/

namespace Lexed

/-- From `i` up to `j` every opener is closed, and a closer that belongs to an opener has it there too. -/
structure IsClosedRange (s : Lexed) (i j : Nat) : Prop where
  closes : ∀ o b, i ≤ o → o < j → s.kindAt o = some (.opener b) → ∃ c, s.closerOf o = some c ∧ c < j
  opens : ∀ o c, s.closerOf o = some c → i ≤ c → c < j → i ≤ o

namespace IsClosedRange

variable {s : Lexed} {i j k : Nat}

theorem nil (i : Nat) : s.IsClosedRange i i where
  closes _ _ hle hlt := absurd hlt (Nat.not_lt.mpr hle)
  opens _ _ _ hle hlt := absurd hlt (Nat.not_lt.mpr hle)

theorem append (h : s.IsClosedRange i j) (h' : s.IsClosedRange j k) (hij : i ≤ j) (hjk : j ≤ k) :
    s.IsClosedRange i k where
  closes o b hio hok hopen := by
    rcases Nat.lt_or_ge o j with hlt | hge
    · obtain ⟨c, hc, hcj⟩ := h.closes o b hio hlt hopen
      exact ⟨c, hc, Nat.lt_of_lt_of_le hcj hjk⟩
    · exact h'.closes o b hge hok hopen
  opens o c hc hic hck := by
    rcases Nat.lt_or_ge c j with hlt | hge
    · exact h.opens o c hc hic hlt
    · exact Nat.le_trans hij (h'.opens o c hc hge hck)

variable (hm : s.IsMatched)
include hm

theorem single {kind : TokenKind} (hk : s.kindAt i = some kind) (hno : kind.isBracket = false) :
    s.IsClosedRange i (i + 1) where
  closes o b hle hlt hopen := by
    obtain rfl : o = i := by omega
    rw [hk] at hopen
    cases hopen
    cases hno
  opens o c hc hle hlt := by
    obtain rfl : c = i := by omega
    obtain ⟨-, -, b, -, hclose⟩ := hm.closer_spec hc
    rw [hk] at hclose
    cases hclose
    cases hno

theorem pair {c : Nat} (hc : s.closerOf i = some c) : s.IsClosedRange i (c + 1) where
  closes o b hle hlt hopen := by
    rcases Nat.eq_or_lt_of_le hle with rfl | hio
    · exact ⟨c, hc, Nat.lt_succ_self c⟩
    · have hoc := (hm.isRegion hc).lt_of_kind hopen (by simp) (Nat.le_of_lt_succ hlt)
      obtain ⟨d, hd, hd'⟩ := hm.inner hc hio hoc hopen
      exact ⟨d, hd', Nat.lt_succ_of_lt hd⟩
  opens o d hd hid hdc := by
    rcases Nat.lt_or_ge o i with hoi | hge
    · -- An opener before this one that is closed after it encloses the closer of this one too.
      obtain ⟨-, -, b, hopen, -⟩ := hm.closer_spec hc
      have hlt : i < d := (hm.isRegion hd).lt_of_kind hopen (by simp) hid
      have := (hm.isRegion hd).closed i c hoi hlt hc
      omega
    · exact hge

end IsClosedRange

end Lexed

theorem Items.isClosedRange {s : Lexed} (hm : s.IsMatched) {i j : Nat} (h : Items s i j) : s.IsClosedRange i j := by
  induction h with
  | none i => exact .nil i
  | @plain i j k hk hp rest ih =>
    have hno : k.isBracket = false := by cases k <;> first | rfl | cases hp
    exact (Lexed.IsClosedRange.single hm hk hno).append ih (Nat.le_succ i) (rest.le hm)
  | @group i c j b hk hb hc rest ih =>
    have hlt := (hm.closer_spec hc).1
    exact (Lexed.IsClosedRange.pair hm hc).append ih (by omega) (rest.le hm)
  | @body i c j w hk hw hb hc rest ih =>
    have hlt := (hm.closer_spec hc).1
    exact (Lexed.IsClosedRange.single hm hk rfl).append
      ((Lexed.IsClosedRange.pair hm hc).append ih (by omega) (rest.le hm)) (by omega)
      (Nat.le_trans (by omega) (rest.le hm))

/-! ## Searches in a region -/

section

variable {s : Lexed} (hm : s.IsMatched) {first limit : Nat} (h : s.IsRegion first limit)
include hm h

theorem afterSemicolon_le {start fuel i : Nat} (hfirst : first ≤ i) (hi : i ≤ limit) :
    afterSemicolon s limit start fuel i ≤ limit := by
  induction fuel generalizing i with
  | zero => exact hi
  | succ fuel ih =>
    rw [afterSemicolon]
    split
    · next hlt =>
      have hskip := hm.lt_skipGroup hlt
      split
      · exact hlt
      · split
        · exact hi
        · exact ih (by omega) hlt
      · exact ih (by omega) (h.skipGroup_le hfirst hlt)
      · exact ih (by omega) hlt
    · exact hi

omit h in
/-- What is left of a broken line is at least one token. -/
theorem lt_afterSemicolon {i : Nat} (hi : i < limit) : i < afterSemicolon s limit i (limit - i) i := by
  obtain ⟨fuel, hfuel⟩ : ∃ n, limit - i = n + 1 := ⟨limit - i - 1, by omega⟩
  rw [hfuel, afterSemicolon, if_pos hi]
  split
  · exact Nat.lt_succ_self i
  · rw [if_neg (Nat.lt_irrefl i)]
    exact le_afterSemicolon hm limit i fuel (i + 1)
  · exact Nat.lt_of_lt_of_le (hm.lt_skipGroup hi) (le_afterSemicolon hm limit i fuel _)
  · exact le_afterSemicolon hm limit i fuel (i + 1)

theorem afterValue_le {fuel i : Nat} (hfirst : first ≤ i) (hi : i ≤ limit) : afterValue s limit fuel i ≤ limit := by
  induction fuel generalizing i with
  | zero => exact hi
  | succ fuel ih =>
    rw [afterValue]
    split
    · next hlt =>
      have hskip := hm.lt_skipGroup hlt
      split
      · exact hi
      · exact hi
      · exact ih (by omega) (h.skipGroup_le hfirst hlt)
      · exact ih (by omega) hlt
    · exact hi

omit hm h in
theorem firstIndex_le (p : TokenKind → Bool) {fuel i : Nat} (hi : i ≤ limit) : firstIndex s limit p fuel i ≤ limit := by
  induction fuel generalizing i with
  | zero => exact hi
  | succ fuel ih =>
    rw [firstIndex]
    split
    · next hlt =>
      simp only [Bool.and_eq_true, decide_eq_true_eq] at hlt
      exact ih hlt.1
    · exact hi

end

/-! ## Readers in a region -/

namespace Reader

/-- From a place in the region the reader goes forward and no further than its end, also where it gives up. -/
def StaysIn {α : Type} (r : Reader α) (first limit : Nat) : Prop :=
  ∀ c, first ≤ c.index → c.index ≤ limit → c.index ≤ (r c).2.index ∧ (r c).2.index ≤ limit

/-- From a place before the end the reader passes at least one token and goes no further than the end. -/
def Advances {α : Type} (r : Reader α) (first limit : Nat) : Prop :=
  ∀ c, first ≤ c.index → c.index < limit → c.index < (r c).2.index ∧ (r c).2.index ≤ limit

namespace StaysIn

variable {α β : Type} {s : Lexed} {first limit : Nat}

theorem bind {r : Reader α} {f : α → Reader β} (hr : r.StaysIn first limit) (hf : ∀ a, (f a).StaysIn first limit) :
    (r >>= f).StaysIn first limit := by
  intro c hfirst hlimit
  have hc := hr c hfirst hlimit
  rw [bind_apply]
  generalize r c = x at hc
  obtain ⟨result, d⟩ := x
  cases result with
  | none => exact hc
  | some a =>
    have hd := hf a d (Nat.le_trans hfirst hc.1) hc.2
    exact ⟨Nat.le_trans hc.1 hd.1, hd.2⟩

theorem give (a : α) : (Reader.give a).StaysIn first limit := fun _ _ hlimit => ⟨Nat.le_refl _, hlimit⟩

theorem fail : (Reader.fail : Reader α).StaysIn first limit := fun _ _ hlimit => ⟨Nat.le_refl _, hlimit⟩

theorem index : Reader.index.StaysIn first limit := fun _ _ hlimit => ⟨Nat.le_refl _, hlimit⟩

theorem report (message : String) : (Reader.report s message).StaysIn first limit :=
  fun _ _ hlimit => ⟨Nat.le_refl _, hlimit⟩

theorem optional {r : Reader α} (hr : r.StaysIn first limit) : r.optional.StaysIn first limit := hr

theorem eat (h : s.IsRegion first limit) {k : TokenKind} (hk : ∀ b, k ≠ .closer b) :
    (Reader.eat s k).StaysIn first limit := by
  intro c _ hlimit
  unfold Reader.eat
  split
  · next hkind => exact ⟨Nat.le_succ _, h.lt_of_kind hkind hk hlimit⟩
  · exact ⟨Nat.le_refl _, hlimit⟩

/-- Going on from a place further on. -/
theorem jump {f : Nat → Nat} {k : Nat → Unit → Reader β}
    (hf : ∀ i, first ≤ i → i ≤ limit → i ≤ f i ∧ f i ≤ limit) (hk : ∀ i u, (k i u).StaysIn first limit) :
    (Reader.index >>= fun i => Reader.goTo (f i) >>= k i).StaysIn first limit := by
  intro c hfirst hlimit
  rw [index_bind, goTo_bind]
  obtain ⟨hle, hle'⟩ := hf c.index hfirst hlimit
  have hd := hk c.index () ⟨f c.index, c.diagnostics⟩ (Nat.le_trans hfirst hle) hle'
  exact ⟨Nat.le_trans hle hd.1, hd.2⟩

end StaysIn

/-- What is made of the thing that was read does not move the cursor. -/
theorem give_after {α β : Type} (r : Reader α) (f : α → β) (c : Cursor) :
    ((r >>= fun a => Reader.give (f a)) c).2 = (r c).2 := by
  rw [bind_apply]
  generalize r c = x
  obtain ⟨result, d⟩ := x
  cases result <;> rfl

end Reader

/-! ## Types in a region -/

section

variable {s : Lexed} (hm : s.IsMatched) {first limit : Nat} (h : s.IsRegion first limit) {inner : Reader TypeExpr}
include h

theorem readTypeArgs_le {c : Cursor} (hfirst : first ≤ c.index) (hlimit : c.index ≤ limit) :
    (readTypeArgs s inner c).2.index ≤ limit := by
  obtain ⟨args, d, hread, hd | ⟨hk, close, hclose, hd⟩⟩ := @readTypeArgs_spec s inner c
  · rw [hread]
    exact hd ▸ hlimit
  · have hlt := h.lt_of_kind hk (by simp) hlimit
    have := h.closed _ _ hfirst hlt hclose
    rw [hread, hd]
    exact this

theorem readNamed_le {c : Cursor} (hfirst : first ≤ c.index) (hlt : c.index < limit) :
    (readNamed s inner c).2.index ≤ limit := by
  rw [readNamed, index_bind]
  split
  · next hk =>
    simp only [Bool.and_eq_true, decide_eq_true_eq] at hk
    have hdot := h.lt_of_kind hk.1 (by simp) hlt
    have hname := h.lt_of_kind hk.2 (by simp) hdot
    rw [skip_bind, give_after]
    exact readTypeArgs_le h (by simp only; omega) hname
  · rw [skip_bind, give_after]
    exact readTypeArgs_le h (by simp only; omega) hlt

theorem skipBrackets_le {c : Cursor} (hfirst : first ≤ c.index) (hlt : c.index < limit) :
    (skipBrackets s c).2.index ≤ limit := by
  unfold skipBrackets
  cases hclose : s.closerOf c.index with
  | none => exact Nat.le_of_lt hlt
  | some close => exact h.closed _ _ hfirst hlt hclose

theorem readInterface_le {c : Cursor} (hfirst : first ≤ c.index) (hlt : c.index < limit) :
    (readInterface s c).2.index ≤ limit := by
  rw [readInterface, index_bind, skip_bind]
  split
  · next hk =>
    have hbrace := h.lt_of_kind hk (by simp) hlt
    refine le_of_eq_of_le ?_
      (skipBrackets_le (c := ⟨c.index + 1, c.diagnostics⟩) h (Nat.le_succ_of_le hfirst) hbrace)
    rw [skipBrackets_bind, skipBrackets]
    cases s.closerOf (c.index + 1) <;> rfl
  · exact hlt

theorem readStruct_le {c : Cursor} (hfirst : first ≤ c.index) (hlt : c.index < limit) :
    (readStruct s inner c).2.index ≤ limit := by
  rw [readStruct, index_bind, skip_bind]
  split
  · next hk =>
    have hbrace := h.lt_of_kind hk (by simp) hlt
    cases hclose : s.closerOf (c.index + 1) with
    | none => exact hlt
    | some close =>
      obtain ⟨fields, d, hfields⟩ := @readFields_some s inner close (close - c.index) [] ⟨c.index + 2, c.diagnostics⟩
      rw [require_some_bind, goTo_bind, bind_some hfields]
      exact h.closed _ _ (Nat.le_succ_of_le hfirst) hbrace hclose
  · exact hlt

variable (hin : ReadsTypes s inner) (hstays : inner.StaysIn first limit)
include hm hin hstays

omit hin in
theorem readSequence_le {c : Cursor} (hk : s.kindAt c.index = some (.opener .square)) (hfirst : first ≤ c.index)
    (hlt : c.index < limit) : (readSequence s inner c).2.index ≤ limit := by
  rw [readSequence, index_bind]
  split
  · next hb =>
    have hnext := h.closed _ _ hfirst hlt (Items.closerOf_eq hm hk hb (.none _))
    rw [skip_bind, give_after]
    exact (hstays ⟨c.index + 2, c.diagnostics⟩ (by simp only; omega) hnext).2
  · cases hclose : s.closerOf c.index with
    | none => exact Nat.le_of_lt hlt
    | some close =>
      rw [require_some_bind]
      cases readLength s c.index close with
      | none => exact Nat.le_of_lt hlt
      | some length =>
        have hbehind := h.closed _ _ hfirst hlt hclose
        have hopen := (hm.closer_spec hclose).1
        rw [require_some_bind, goTo_bind, give_after]
        exact (hstays ⟨close + 1, c.diagnostics⟩ (by simp only; omega) hbehind).2

theorem readMap_le {c : Cursor} (hfirst : first ≤ c.index) (hlt : c.index < limit) :
    (readMap s inner c).2.index ≤ limit := by
  rw [readMap, skip_bind, expect_bind]
  split
  · next hopen =>
    have hnext := h.lt_of_kind hopen (by simp) hlt
    have hkey := hstays ⟨c.index + 1 + 1, c.diagnostics⟩ (by simp only; omega) hnext
    have hread := hin ⟨c.index + 1 + 1, c.diagnostics⟩
    rw [bind_apply]
    generalize inner ⟨c.index + 1 + 1, c.diagnostics⟩ = x at hkey hread
    obtain ⟨result, d⟩ := x
    cases result with
    | none => exact hkey.2
    | some key =>
      simp only [expect_bind]
      split
      · next hclose =>
        have hpair := Items.closerOf_eq hm hopen hclose (hread.2 rfl).2.1
        have hbehind := h.closed (c.index + 1) _ (Nat.le_succ_of_le hfirst) hnext hpair
        rw [give_after]
        exact (hstays ⟨d.index + 1, d.diagnostics⟩ (by simp only at hkey ⊢; omega) hbehind).2
      · exact hkey.2
  · exact hlt

omit hm hin in
theorem readChan_le {c : Cursor} (hfirst : first ≤ c.index) (hlt : c.index < limit) :
    (readChan s inner c).2.index ≤ limit := by
  rw [readChan, skip_bind, eat_bind]
  split
  · next harrow =>
    have hnext := h.lt_of_kind harrow (by simp) hlt
    rw [give_after]
    exact (hstays ⟨c.index + 1 + 1, c.diagnostics⟩ (by simp only; omega) hnext).2
  · rw [give_after]
    exact (hstays ⟨c.index + 1, c.diagnostics⟩ (by simp only; omega) hlt).2

omit hm hin in
theorem skipResult_le {c : Cursor} (hfirst : first ≤ c.index) (hlimit : c.index ≤ limit) :
    (skipResult s inner c).2.index ≤ limit := by
  cases hk : s.kindAt c.index with
  | none => rwa [skipResult_none hk]
  | some kind =>
    by_cases hparen : kind = .opener .paren
    · subst hparen
      rw [skipResult_paren hk]
      exact skipBrackets_le h hfirst (h.lt_of_kind hk (by simp) hlimit)
    · rw [skipResult_other hk hparen]
      split
      · cases (inner c).1 with
        | none => exact hlimit
        | some _ => exact (hstays c hfirst hlimit).2
      · exact hlimit

omit hin in
theorem readFunc_le {c : Cursor} (hfirst : first ≤ c.index) (hlt : c.index < limit) :
    (readFunc s inner c).2.index ≤ limit := by
  rw [readFunc, index_bind, skip_bind]
  split
  · next hk =>
    have hparen := h.lt_of_kind hk (by simp) hlt
    rw [skipBrackets_bind]
    cases hclose : s.closerOf (c.index + 1) with
    | none => exact hlt
    | some close =>
      have hbehind := h.closed _ _ (Nat.le_succ_of_le hfirst) hparen hclose
      have hopen := (hm.closer_spec hclose).1
      have hresult := skipResult_le (c := ⟨close + 1, c.diagnostics⟩) h hstays (by simp only; omega) hbehind
      simp only [bind_apply]
      generalize skipResult s inner ⟨close + 1, c.diagnostics⟩ = x at hresult
      obtain ⟨result, d⟩ := x
      cases result with
      | none => exact hresult
      | some _ => exact hresult
  · exact hlt

theorem readParenthesized_le {c : Cursor} (hk : s.kindAt c.index = some (.opener .paren)) (hfirst : first ≤ c.index)
    (hlt : c.index < limit) : (readParenthesized s inner c).2.index ≤ limit := by
  have hread := hin ⟨c.index + 1, c.diagnostics⟩
  have hinside := hstays ⟨c.index + 1, c.diagnostics⟩ (by simp only; omega) hlt
  rw [readParenthesized, skip_bind, bind_apply]
  generalize inner ⟨c.index + 1, c.diagnostics⟩ = x at hread hinside
  obtain ⟨result, d⟩ := x
  cases result with
  | none => exact hinside.2
  | some type =>
    simp only [expect_bind]
    split
    · next hclose => exact h.closed _ _ hfirst hlt (Items.closerOf_eq hm hk hclose (hread.2 rfl).2.1)
    · exact hinside.2

/-- What may begin a type is no end of a region, and each form of type ends in the region it begins in. -/
theorem readForm_stays : (readForm s inner).StaysIn first limit := by
  intro c hfirst hlimit
  refine ⟨(readForm_reads hm hin c).1, ?_⟩
  rw [readForm_eq]
  split
  case h_1 hk => exact readNamed_le h hfirst (h.lt_of_kind hk (by simp) hlimit)
  case h_2 hk =>
    rw [give_after]
    exact (hstays ⟨c.index + 1, _⟩ (by simp only; omega) (h.lt_of_kind hk (by simp) hlimit)).2
  case h_3 hk => exact readSequence_le hm h hstays hk hfirst (h.lt_of_kind hk (by simp) hlimit)
  case h_4 hk => exact readMap_le hm h hin hstays hfirst (h.lt_of_kind hk (by simp) hlimit)
  case h_5 hk => exact readChan_le h hstays hfirst (h.lt_of_kind hk (by simp) hlimit)
  case h_6 hk =>
    split
    · next hchan =>
      have hnext := h.lt_of_kind hchan (by simp) (h.lt_of_kind hk (by simp) hlimit)
      rw [give_after]
      exact (hstays ⟨c.index + 2, _⟩ (by simp only; omega) hnext).2
    · exact hlimit
  case h_7 hk => exact readFunc_le hm h hstays hfirst (h.lt_of_kind hk (by simp) hlimit)
  case h_8 hk => exact readStruct_le h hfirst (h.lt_of_kind hk (by simp) hlimit)
  case h_9 hk => exact readInterface_le h hfirst (h.lt_of_kind hk (by simp) hlimit)
  case h_10 hk => exact readParenthesized_le hm h hin hstays hk hfirst (h.lt_of_kind hk (by simp) hlimit)
  case h_11 => exact hlimit

omit hin hstays in
theorem readTypeWithin_stays (depth : Nat) : Reader.StaysIn (readTypeWithin s depth) first limit := by
  induction depth with
  | zero => exact .fail
  | succ depth ih => exact readForm_stays hm h (readTypeWithin_reads hm depth) ih

omit hin hstays in
/-- A type that begins in a region ends there, and so does the search for one. -/
theorem readType_stays : (readType s).StaysIn first limit := readTypeWithin_stays hm h _

end

end LiteralFill
