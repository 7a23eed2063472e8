import LiteralFill.Proofs.Reading.Alignment

/-!
The reader of types reads alike in two texts whose tokens correspond.
-/

namespace LiteralFill

open Reader

namespace Alignment

variable {s s' : Lexed} {A : Alignment s s'} (hm : s.IsMatched)
  {inner inner' : Reader TypeExpr} {i : Nat}

/-! ## Type arguments -/

/-- Past the closing bracket no arguments are found. -/
theorem readArgs_past (hin : ReadsTypes s inner) {close fuel : Nat} {args : List TypeExpr} {c : Cursor}
    (h : close < c.index) : (readArgs s inner close fuel args c).1 = none := by
  induction fuel generalizing args c with
  | zero => rfl
  | succ fuel ih =>
    have hle := (hin c).1
    rw [readArgs]
    rcases hr : inner c with ⟨result, d⟩
    rw [hr] at hle
    simp only at hle
    cases result with
    | none => rw [bind_none hr]
    | some arg =>
      rw [bind_some hr, eat_bind]
      split
      · exact ih (by simp only; omega)
      · rw [if_neg (by simp), index_bind, if_neg (by omega)]
        rfl

/-- The same lists of types, up to positions if both texts are the same so far. -/
def sameTypes (A : Alignment s s') (j : Nat) (ts ts' : List TypeExpr) : Prop :=
  A.exact j → ts' = TypeExpr.moveAll A.move ts

variable (hin : ReadsTypes s inner) (hin' : ReadsTypes s' inner') (ha : A.AlikeAfter i inner inner')
include hin hin' ha

theorem readArgs_alike {close close' fuel fuel' : Nat} (hclose : A.pairs close close')
    {args args' : List TypeExpr} {c c' : Cursor} (hi : i < c.index) (hc : A.pairs c.index c'.index)
    (hf : close < c.index + fuel) (hf' : close' < c'.index + fuel')
    (hargs : A.sameTypes close args args') :
    (readArgs s inner close fuel args c).1 = none ∧
        (readArgs s' inner' close' fuel' args' c').1 = none ∨
      ∃ ts ts' d d', readArgs s inner close fuel args c = (some ts, d) ∧
        readArgs s' inner' close' fuel' args' c' = (some ts', d') ∧ A.sameTypes close ts ts' := by
  induction fuel generalizing fuel' args args' c c' with
  | zero =>
    have := (A.order hclose hc).mp (by omega)
    exact .inl ⟨rfl, readArgs_past hin' this⟩
  | succ fuel ih =>
    cases fuel' with
    | zero =>
      have := (A.order hclose hc).mpr (by omega)
      exact .inl ⟨readArgs_past hin this, rfl⟩
    | succ fuel' =>
      have hlike := ha c c' hi hc
      have hread := hin c
      have hread' := hin' c'
      rw [readArgs, readArgs, bind_apply, bind_apply]
      generalize hr : inner c = r at hlike hread
      generalize hr' : inner' c' = r' at hlike hread'
      cases hlike with
      | failed => exact .inl ⟨rfl, rfl⟩
      | @gave d d' t t' hd ht =>
        have hlt := (hread.2 rfl).1
        have hlt' := (hread'.2 rfl).1
        simp only at hlt hlt'
        simp only [eat_bind, A.kind hd]
        by_cases hk : s.kindAt d.index = some .comma
        · simp only [hk, ↓reduceIte]
          by_cases hpast : close < d.index + 1
          · have hnext := A.next_of_kind hd hk (by decide)
            have := (A.order hclose hnext).mp hpast
            exact .inl ⟨readArgs_past hin hpast, readArgs_past hin' this⟩
          · refine ih (by simp only; omega) (A.next_of_kind hd hk (by decide)) (by simp only; omega)
              (by simp only; omega) fun he => ?_
            rw [hargs he, ht.2 (A.exact_of_le he (by omega)), TypeExpr.moveAll_append]
            rfl
        · simp only [hk, ↓reduceIte, Bool.false_eq_true, index_bind]
          by_cases hend : d.index = close
          · have hend' := (A.eq hd hclose).mp hend
            simp only [hend, hend', ↓reduceIte, skip_bind, give_apply]
            refine .inr ⟨_, _, _, _, rfl, rfl, fun he => ?_⟩
            rw [hargs he, ht.2 (hend ▸ he), TypeExpr.moveAll_append]
            rfl
          · have hend' : ¬ d'.index = close' := fun h => hend ((A.eq hd hclose).mpr h)
            simp only [hend, hend', ↓reduceIte]
            exact .inl ⟨rfl, rfl⟩

include hm

theorem readTypeArgs_alike {c c' : Cursor} (hi : i ≤ c.index) (hc : A.pairs c.index c'.index) :
    A.Alike A.sameTypes (readTypeArgs s inner c) (readTypeArgs s' inner' c') := by
  have hnone : A.sameTypes c.index [] [] := fun _ => rfl
  rw [readTypeArgs, readTypeArgs, index_bind, index_bind, A.kind hc]
  by_cases hk : s.kindAt c.index = some (.opener .square)
  · have hnext := A.next_of_kind hc hk (by decide)
    rw [A.kind hnext]
    split
    · cases hclose : s.closerOf c.index with
      | none =>
        rw [A.close_none hc hclose]
        exact .gave hc hnone
      | some close =>
        obtain ⟨close', hclose', hpair, hafter⟩ := A.after_close hm hc hclose
        have hlt := (hm.closer_spec hclose).1
        rw [hclose']
        simp only [skip_bind, optional_bind]
        have hlt' := (A.order hc hpair).mp hlt
        have hlike := @readArgs_alike _ _ A _ _ _ hin hin' ha close close' (close - c.index)
          (close' - c'.index) hpair [] [] ⟨c.index + 1, c.diagnostics⟩ ⟨c'.index + 1, c'.diagnostics⟩
          (by simp only; omega) hnext (by simp only; omega) (by simp only; omega) fun _ => rfl
        have hindex := @readArgs_index s inner close (close - c.index) []
          ⟨c.index + 1, c.diagnostics⟩
        have hindex' := @readArgs_index s' inner' close' (close' - c'.index) []
          ⟨c'.index + 1, c'.diagnostics⟩
        rcases hlike with ⟨h, h'⟩ | ⟨ts, ts', d, d', h, h', hts⟩
        · rw [h, h']
          exact .gave hc hnone
        · rw [h] at hindex ⊢
          rw [h'] at hindex' ⊢
          have hd : d.index = close + 1 := hindex rfl
          have hd' : d'.index = close' + 1 := hindex' rfl
          refine .gave (by rw [hd, hd']; exact hafter) fun he => hts (A.exact_of_le he ?_)
          simp only
          omega
    · exact .gave hc hnone
  · simp only [hk, decide_false, Bool.false_and, Bool.false_eq_true, ↓reduceIte]
    exact .gave hc hnone

/-! ## Names -/

theorem readNamed_alike {c c' : Cursor} (hi : i ≤ c.index) (hc : A.pairs c.index c'.index)
    (hk : s.kindAt c.index = some .ident) :
    A.Alike A.sameType (readNamed s inner c) (readNamed s' inner' c') := by
  have h1 := A.next_of_kind hc hk (by decide)
  have hargs : ∀ {q q' : Option String} {n n' : String} {d d' : Cursor}, i ≤ d.index →
      A.pairs d.index d'.index → q' = q → n' = n →
      A.Alike A.sameType ((readTypeArgs s inner >>= fun args => give (.name q n args)) d)
        ((readTypeArgs s' inner' >>= fun args => give (.name q' n' args)) d') := by
    rintro q q' n n' d d' hd hpair rfl rfl
    refine (readTypeArgs_alike hm hin hin' ha hd hpair).bind fun ts ts' e e' _ he hts => ?_
    exact .gave he ⟨rfl, fun hx => by rw [hts hx, TypeExpr.move]⟩
  rw [readNamed, readNamed, index_bind, index_bind, A.kind h1]
  by_cases hdot : s.kindAt (c.index + 1) = some .dot
  · have h2 := A.next_of_kind h1 hdot (by decide)
    rw [A.kind h2]
    split
    case isTrue h =>
      simp only [Bool.and_eq_true, decide_eq_true_eq] at h
      simp only [skip_bind]
      exact hargs (by simp only; omega) (A.next_of_kind h2 h.2 (by decide)) (congrArg some (A.name hc)) (A.name h2)
    case isFalse => exact hargs (by simp only; omega) h1 rfl (A.name hc)
  · simp only [hdot, decide_false, Bool.false_and, Bool.false_eq_true, ↓reduceIte]
    exact hargs (by simp only; omega) h1 rfl (A.name hc)

/-! ## Lengths -/

omit hm hin hin' ha

/-- What stands between an opening bracket and its closer is the same text if both texts are the same up to
there. -/
theorem textBetween_eq {lbrack lbrack' close close' : Nat} (hk : A.pairs (lbrack + 1) (lbrack' + 1))
    (hclose : A.pairs close close') (hlt : lbrack + 1 < close) (he : A.exact close) :
    s'.textBetween (lbrack' + 1) (close' - 1) = s.textBetween (lbrack + 1) (close - 1) := by
  have hlt' := (A.order hk hclose).mp hlt
  have htext := A.slice hk hclose hlt he
  obtain ⟨m, rfl⟩ : ∃ m, close = m + 1 := ⟨close - 1, by omega⟩
  obtain ⟨m', rfl⟩ : ∃ m', close' = m' + 1 := ⟨close' - 1, by omega⟩
  simp only [Lexed.stopBefore] at htext
  simp only [Lexed.textBetween, sliceText, Nat.add_sub_cancel, htext]

theorem readLength_alike {lbrack lbrack' close close' : Nat} (hp : A.pairs lbrack lbrack')
    (hk : s.kindAt lbrack = some (.opener .square)) (hclose : A.pairs close close') :
    (readLength s lbrack close = none ∧ readLength s' lbrack' close' = none) ∨
      ∃ n n', readLength s lbrack close = some n ∧ readLength s' lbrack' close' = some n' ∧
        (A.exact close → n' = n) := by
  have h1 := A.next_of_kind hp hk (by decide)
  have hsingle : ∀ k, k ≠ .opener .brace →
      (decide (close' = lbrack' + 2) && decide (s'.kindAt (lbrack' + 1) = some k)) =
        (decide (close = lbrack + 2) && decide (s.kindAt (lbrack + 1) = some k)) := by
    intro k hb
    rw [A.kind h1]
    by_cases hkind : s.kindAt (lbrack + 1) = some k
    · have := A.eq hclose (A.next_of_kind h1 hkind hb)
      simp only [this, hkind]
    · simp [hkind]
  rw [readLength, readLength, hsingle _ (by simp), hsingle _ (by simp), A.name h1]
  by_cases hdots : (decide (close = lbrack + 2) &&
      decide (s.kindAt (lbrack + 1) = some .ellipsis)) = true
  · rw [if_pos hdots, if_pos hdots]
    exact .inr ⟨_, _, rfl, rfl, fun _ => rfl⟩
  · rw [if_neg hdots, if_neg hdots]
    by_cases hnumber : (decide (close = lbrack + 2) &&
        decide (s.kindAt (lbrack + 1) = some .number)) = true
    · rw [if_pos hnumber, if_pos hnumber]
      cases integerValue (s.nameAt (lbrack + 1)).toList with
      | none => exact .inl ⟨rfl, rfl⟩
      | some n => exact .inr ⟨_, _, rfl, rfl, fun _ => rfl⟩
    · rw [if_neg hnumber, if_neg hnumber]
      by_cases hlt : lbrack + 1 < close
      · rw [if_pos hlt, if_pos ((A.order h1 hclose).mp hlt)]
        exact .inr ⟨_, _, rfl, rfl, fun he => by rw [textBetween_eq h1 hclose hlt he]⟩
      · rw [if_neg hlt, if_neg fun h => hlt ((A.order h1 hclose).mpr h)]
        exact .inl ⟨rfl, rfl⟩

/-! ## The forms of types -/

include ha hm hin

theorem readSequence_alike {c c' : Cursor} (hi : i ≤ c.index) (hc : A.pairs c.index c'.index)
    (hk : s.kindAt c.index = some (.opener .square)) :
    A.Alike A.sameType (readSequence s inner c) (readSequence s' inner' c') := by
  have h1 := A.next_of_kind hc hk (by decide)
  rw [readSequence, readSequence, index_bind, index_bind, A.kind h1]
  by_cases hb : s.kindAt (c.index + 1) = some (.closer .square)
  · simp only [hb, ↓reduceIte, skip_bind]
    refine (ha _ _ (by simp only; omega) (A.next_of_kind h1 hb (by decide))).map (fun _ _ => rfl) fun t d _ _ => ?_
    rw [TypeExpr.move]
  · simp only [hb, ↓reduceIte]
    cases hclose : s.closerOf c.index with
    | none =>
      rw [A.close_none hc hclose]
      exact .failed hc
    | some close =>
      obtain ⟨close', hclose', hpair, hafter⟩ := A.after_close hm hc hclose
      rw [hclose', require_some_bind, require_some_bind]
      have hlt := (hm.closer_spec hclose).1
      rcases readLength_alike hc hk hpair with ⟨h, h'⟩ | ⟨n, n', h, h', hn⟩
      · rw [h, h']
        exact .failed hc
      · rw [h, h']
        simp only [require_some_bind, goTo_bind]
        refine (ha ⟨close + 1, _⟩ ⟨close' + 1, _⟩ (by simp only; omega) hafter).map
          (fun _ _ => rfl) fun t d hd he => ?_
        have := hin.lt hd
        simp only at this
        rw [hn (A.exact_of_le he (by omega)), TypeExpr.move]

omit hm

theorem readMap_alike {c c' : Cursor} (hi : i ≤ c.index) (hc : A.pairs c.index c'.index)
    (hk : s.kindAt c.index = some (.keyword .mapWord)) :
    A.Alike A.sameType (readMap s inner c) (readMap s' inner' c') := by
  have h1 := A.next_of_kind hc hk (by decide)
  rw [readMap, readMap, skip_bind, skip_bind, expect_bind, expect_bind]
  simp only [A.kind h1]
  by_cases hb : s.kindAt (c.index + 1) = some (.opener .square)
  · simp only [hb, ↓reduceIte]
    refine (ha ⟨c.index + 1 + 1, _⟩ ⟨c'.index + 1 + 1, _⟩ (by simp only; omega)
      (A.next_of_kind h1 hb (by decide))).bind fun k k' d d' hd hp hkey => ?_
    have hlt := hin.lt hd
    simp only at hlt
    simp only [expect_bind, A.kind hp]
    by_cases hb' : s.kindAt d.index = some (.closer .square)
    · simp only [hb', ↓reduceIte]
      refine (ha ⟨d.index + 1, _⟩ ⟨d'.index + 1, _⟩ (by simp only; omega)
        (A.next_of_kind hp hb' (by decide))).map (fun _ _ => rfl) fun t e he hx => ?_
      have := hin.lt he
      simp only at this
      rw [hkey.2 (A.exact_of_le hx (by omega)), TypeExpr.move]
    · simp only [hb', ↓reduceIte]
      exact .failed hp
  · simp only [hb, ↓reduceIte]
    exact .failed h1

omit hin

theorem readParenthesized_alike {c c' : Cursor} (hi : i ≤ c.index) (hc : A.pairs c.index c'.index)
    (hk : s.kindAt c.index = some (.opener .paren)) :
    A.Alike A.sameType (readParenthesized s inner c) (readParenthesized s' inner' c') := by
  rw [readParenthesized, readParenthesized, skip_bind, skip_bind]
  refine (ha ⟨c.index + 1, _⟩ ⟨c'.index + 1, _⟩ (by simp only; omega)
    (A.next_of_kind hc hk (by decide))).bind fun t t' d d' _ hp ht => ?_
  simp only [expect_bind, A.kind hp]
  by_cases hb : s.kindAt d.index = some (.closer .paren)
  · simp only [hb, ↓reduceIte, give_apply]
    exact .gave (A.next_of_kind hp hb (by decide)) ⟨ht.1, fun hx => ht.2 (A.exact_of_le hx (Nat.le_succ _))⟩
  · simp only [hb, ↓reduceIte]
    exact .failed hp

theorem readChan_alike {c c' : Cursor} (hi : i ≤ c.index) (hc : A.pairs c.index c'.index)
    (hk : s.kindAt c.index = some (.keyword .chanWord)) :
    A.Alike A.sameType (readChan s inner c) (readChan s' inner' c') := by
  have h1 := A.next_of_kind hc hk (by decide)
  rw [readChan, readChan, skip_bind, skip_bind, eat_bind, eat_bind]
  simp only [A.kind h1]
  by_cases hb : s.kindAt (c.index + 1) = some .arrow
  · simp only [hb, ↓reduceIte]
    refine (ha ⟨c.index + 1 + 1, _⟩ ⟨c'.index + 1 + 1, _⟩ (by simp only; omega)
      (A.next_of_kind h1 hb (by decide))).map (fun _ _ => rfl) fun t d _ _ => ?_
    rw [TypeExpr.move]
  · simp only [hb, ↓reduceIte, Bool.false_eq_true]
    refine (ha ⟨c.index + 1, _⟩ ⟨c'.index + 1, _⟩ (by simp only; omega) h1).map
      (fun _ _ => rfl) fun t d _ _ => ?_
    rw [TypeExpr.move]

include hm

/-- The same place in both texts: nothing that was read matters. -/
theorem skipResult_alike (c c' : Cursor) (hi : i < c.index) (hc : A.pairs c.index c'.index) :
    A.Alike (fun _ _ _ => True) (skipResult s inner c) (skipResult s' inner' c') := by
  cases hk : s.kindAt c.index with
  | none =>
    rw [skipResult_none hk, skipResult_none ((A.kind hc).trans hk)]
    exact .gave hc trivial
  | some kind =>
    have hk' := (A.kind hc).trans hk
    by_cases hparen : kind = .opener .paren
    · subst hparen
      rw [skipResult_paren hk, skipResult_paren hk', skipBrackets, skipBrackets]
      cases hclose : s.closerOf c.index with
      | none =>
        rw [A.close_none hc hclose]
        exact .failed hc
      | some close =>
        obtain ⟨close', hclose', -, hafter⟩ := A.after_close hm hc hclose
        rw [hclose']
        exact .gave hafter trivial
    · rw [skipResult_other hk hparen, skipResult_other hk' hparen]
      split
      · have hlike := ha c c' hi hc
        generalize inner c = r at hlike
        generalize inner' c' = r' at hlike
        cases hlike with
        | failed => exact .gave hc trivial
        | gave hd => exact .gave hd trivial
      · exact .gave hc trivial

include hin

theorem readFunc_alike {c c' : Cursor} (hi : i ≤ c.index) (hc : A.pairs c.index c'.index)
    (hk : s.kindAt c.index = some (.keyword .funcWord)) :
    A.Alike A.sameType (readFunc s inner c) (readFunc s' inner' c') := by
  have h1 := A.next_of_kind hc hk (by decide)
  rw [readFunc, readFunc, index_bind, index_bind, skip_bind, skip_bind, A.kind h1]
  by_cases hb : s.kindAt (c.index + 1) = some (.opener .paren)
  · simp only [hb, ↓reduceIte, skipBrackets_bind]
    cases hclose : s.closerOf (c.index + 1) with
    | none =>
      rw [A.close_none h1 hclose]
      exact .failed h1
    | some close =>
      obtain ⟨close', hclose', -, hafter⟩ := A.after_close hm h1 hclose
      have hlt := (hm.closer_spec hclose).1
      rw [hclose']
      refine (skipResult_alike hm ha ⟨close + 1, _⟩ ⟨close' + 1, _⟩
        (by simp only; omega) hafter).bind fun u u' d d' hd hp _ => ?_
      have hle : close + 1 ≤ d.index := by
        have hspec := skipResult_spec hm hin ⟨close + 1, c.diagnostics⟩
        rw [hd] at hspec
        rcases hspec with h | h
        · exact Nat.le_of_eq h.symm
        · exact h.1
      simp only [index_bind, give_apply]
      refine .gave hp ⟨rfl, fun hx => ?_⟩
      rw [TypeExpr.move, sliceText, sliceText, A.slice hc hp (by omega) hx]
  · simp only [hb, ↓reduceIte]
    exact .failed h1

omit ha hin in
theorem readInterface_alike {c c' : Cursor} (hc : A.pairs c.index c'.index)
    (hk : s.kindAt c.index = some (.keyword .interfaceWord)) :
    A.Alike A.sameType (readInterface s c) (readInterface s' c') := by
  have h1 := A.next_of_kind hc hk (by decide)
  rw [readInterface, readInterface, index_bind, index_bind, skip_bind, skip_bind, A.kind h1]
  by_cases hb : s.kindAt (c.index + 1) = some (.opener .brace)
  · simp only [hb, ↓reduceIte, skipBrackets_bind]
    cases hclose : s.closerOf (c.index + 1) with
    | none =>
      rw [A.close_none h1 hclose]
      exact .failed h1
    | some close =>
      obtain ⟨close', hclose', -, hafter⟩ := A.after_close hm h1 hclose
      have hlt := (hm.closer_spec hclose).1
      rw [hclose']
      refine .gave hafter ⟨rfl, fun hx => ?_⟩
      simp only
      rw [TypeExpr.move, sliceText, sliceText, A.slice hc hafter (by omega) hx]
  · simp only [hb, ↓reduceIte]
    exact .failed h1

end Alignment

end LiteralFill
