import LiteralFill.Proofs.Reading.Fields

/-!
Every form of type reads alike in two texts whose tokens correspond, and so does the reader of types, which
allows for as many nested types as there are tokens.
-/

namespace LiteralFill

open Reader

namespace Alignment

variable {s s' : Lexed} {A : Alignment s s'} (hm : s.IsMatched)

section

variable {inner inner' : Reader TypeExpr} {i : Nat} (hin : ReadsTypes s inner)
  (hin' : ReadsTypes s' inner') (ha : A.AlikeAfter i inner inner')
include hm hin ha

/-- The fields of a struct type need not be the same for the struct to end at the same place. -/
theorem readStruct_alike {c c' : Cursor} (hi : i ≤ c.index) (hc : A.pairs c.index c'.index)
    (hk : s.kindAt c.index = some (.keyword .structWord)) :
    A.Alike A.sameType (readStruct s inner c) (readStruct s' inner' c') := by
  have h1 := A.next_of_kind hc hk (by decide)
  rw [readStruct, readStruct, index_bind, index_bind, skip_bind, skip_bind, A.kind h1]
  by_cases hb : s.kindAt (c.index + 1) = some (.opener .brace)
  · simp only [hb, ↓reduceIte]
    cases hclose : s.closerOf (c.index + 1) with
    | none =>
      rw [A.close_none h1 hclose]
      exact .failed h1
    | some close =>
      obtain ⟨close', hclose', hpair, hafter⟩ := A.after_close hm h1 hclose
      obtain ⟨-, -, b, hopen, hend⟩ := hm.closer_spec hclose
      rw [hb] at hopen
      cases hopen
      rw [hclose', require_some_bind, require_some_bind, goTo_bind, goTo_bind]
      obtain ⟨fields, d, hd⟩ := @readFields_some s inner close (close - c.index) []
        ⟨c.index + 2, c.diagnostics⟩
      obtain ⟨fields', d', hd'⟩ := @readFields_some s' inner' close' (close' - c'.index) []
        ⟨c'.index + 2, c'.diagnostics⟩
      rw [bind_some hd, bind_some hd']
      refine .gave hafter ⟨rfl, fun hx => ?_⟩
      have hx' : A.exact close := A.exact_of_le hx (Nat.le_succ _)
      have hnil : [] = TypeExpr.moveFields A.move [] := by rw [TypeExpr.moveFields]
      have hlike := readFields_alike hm hin (fun d d' hd hp => ha d d' (by omega) hp) hclose hend hpair
        hx' (close - c.index) hnil ⟨c.index + 2, c.diagnostics⟩
        ⟨c'.index + 2, c'.diagnostics⟩ (Nat.lt_succ_self _) (A.body hc hk hb)
      rw [hd, ← A.exact_sub hc hpair hx', hd'] at hlike
      cases hlike with
      | gave _ hfields => rw [TypeExpr.move, hfields]
  · simp only [hb, ↓reduceIte]
    exact .failed h1

include hin'

theorem readForm_alike {c c' : Cursor} (hi : i ≤ c.index) (hc : A.pairs c.index c'.index) :
    A.Alike A.sameType (readForm s inner c) (readForm s' inner' c') := by
  rw [readForm_eq, readForm_eq, A.kind hc]
  split
  case h_1 hk => exact readNamed_alike hm hin hin' ha hi hc hk
  case h_2 hk =>
    refine (ha ⟨c.index + 1, _⟩ ⟨c'.index + 1, _⟩ (by simp only; omega) (A.next_of_kind hc hk (by decide))).map
      (fun _ _ => rfl) fun t d _ _ => ?_
    rw [TypeExpr.move]
  case h_3 hk => exact readSequence_alike hm hin ha hi hc hk
  case h_4 hk => exact readMap_alike hin ha hi hc hk
  case h_5 hk => exact readChan_alike ha hi hc hk
  case h_6 hk =>
    have h1 := A.next_of_kind hc hk (by decide)
    rw [A.kind h1]
    split
    case isTrue hk' =>
      refine (ha ⟨c.index + 2, _⟩ ⟨c'.index + 2, _⟩ (by simp only; omega)
        (A.next_of_kind h1 hk' (by decide))).map (fun _ _ => rfl) fun t d _ _ => ?_
      rw [TypeExpr.move]
    case isFalse => exact .failed hc
  case h_7 hk => exact readFunc_alike hm hin ha hi hc hk
  case h_8 hk => exact readStruct_alike hm hin ha hi hc hk
  case h_9 hk => exact readInterface_alike hm hc hk
  case h_10 hk => exact readParenthesized_alike ha hi hc hk
  case h_11 => exact .failed hc

end

/-- Past the last token nothing is read. -/
theorem readTypeWithin_past {depth : Nat} {c : Cursor} (h : s.kindAt c.index = none) :
    readTypeWithin s depth c = (none, c) := by
  cases depth with
  | zero => rfl
  | succ depth => exact (readForm_eq c).trans (by rw [h])

theorem kindAt_none {i : Nat} (h : s.size ≤ i) : s.kindAt i = none := by
  rw [Lexed.kindAt, Array.getElem?_eq_none h]
  rfl

include hm

theorem readTypeWithin_alike (hm' : s'.IsMatched) {depth depth' : Nat} {c c' : Cursor}
    (hc : A.pairs c.index c'.index) (h : s.size < c.index + depth) (h' : s'.size < c'.index + depth') :
    A.Alike A.sameType (readTypeWithin s depth c) (readTypeWithin s' depth' c') := by
  induction depth generalizing depth' c c' with
  | zero =>
    have hk := kindAt_none (s := s) (i := c.index) (by omega)
    rw [readTypeWithin_past hk, readTypeWithin_past ((A.kind hc).trans hk)]
    exact .failed hc
  | succ depth ih =>
    cases depth' with
    | zero =>
      have hk := kindAt_none (s := s') (i := c'.index) (by omega)
      rw [readTypeWithin_past hk, readTypeWithin_past ((A.kind hc).symm.trans hk)]
      exact .failed hc
    | succ depth' =>
      refine readForm_alike hm (readTypeWithin_reads hm depth) (readTypeWithin_reads hm' depth')
        (i := c.index) (fun d d' hd hp => ih hp (by omega) ?_) (Nat.le_refl _) hc
      have := (A.order hc hp).mp hd
      omega

/-- Types read alike at corresponding places. -/
theorem readType_alike (hm' : s'.IsMatched) (c c' : Cursor) (hc : A.pairs c.index c'.index) :
    A.Alike A.sameType (readType s c) (readType s' c') :=
  readTypeWithin_alike hm hm' hc (by omega) (by omega)

end Alignment

end LiteralFill
