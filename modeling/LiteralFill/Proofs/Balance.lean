import LiteralFill.Proofs.Brackets

/-!
Kinds of tokens with balanced brackets. A search for a closing bracket passes over them whole, so the brackets
around them belong to each other.
-/

namespace LiteralFill

/-! ## Kinds with balanced brackets -/

/-- Kinds of tokens with balanced brackets. -/
inductive IsBalanced : List TokenKind → Prop
  | none : IsBalanced []
  | single {k : TokenKind} {ks : List TokenKind} (hk : k.isBracket = false) (rest : IsBalanced ks) :
      IsBalanced (k :: ks)
  | group {b : Bracket} {inside ks : List TokenKind} (hi : IsBalanced inside) (rest : IsBalanced ks) :
      IsBalanced (.opener b :: (inside ++ .closer b :: ks))

/-- A walk with open brackets passes balanced ones. -/
theorem IsBalanced.closerDistance {ks : List TokenKind} (h : IsBalanced ks) {stack : List Bracket}
    (hs : stack ≠ []) (rest : List TokenKind) :
    closerDistance stack (ks ++ rest) = (closerDistance stack rest).map (· + ks.length) := by
  induction h generalizing stack rest with
  | none => simp
  | @single k ks hk _ ih =>
    have hstep : nestStep stack k = stack := by
      cases k with
      | opener b => cases hk
      | closer b => cases hk
      | _ => rfl
    rw [List.cons_append, LiteralFill.closerDistance, hstep, if_neg hs, ih hs, Option.map_map]
    congr 1
  | @group b inside ks _ _ ih ih' =>
    rw [List.cons_append, LiteralFill.closerDistance, nestStep, if_neg (by simp), List.append_assoc,
      ih (by simp), List.cons_append, LiteralFill.closerDistance]
    have hclose : nestStep (b :: stack) (.closer b) = stack := by simp [nestStep]
    rw [hclose, if_neg hs, ih' hs]
    simp only [Option.map_map]
    congr 1
    funext n
    simp only [Function.comp_apply, List.length_cons, List.length_append]
    omega

theorem IsBalanced.append {ks ls : List TokenKind} (h : IsBalanced ks) (h' : IsBalanced ls) :
    IsBalanced (ks ++ ls) := by
  induction h with
  | none => exact h'
  | single hk _ ih => exact .single hk ih
  | group hi _ _ ih =>
    rw [List.cons_append, List.append_assoc]
    exact .group hi ih

/-- Kinds with balanced brackets and no comma outside them: an element of a list may be made of them. -/
inductive IsValue : List TokenKind → Prop
  | none : IsValue []
  | single {k : TokenKind} {ks : List TokenKind} (hk : k.isBracket = false) (hc : k ≠ .comma)
      (rest : IsValue ks) : IsValue (k :: ks)
  | group {b : Bracket} {inside ks : List TokenKind} (hi : IsBalanced inside) (rest : IsValue ks) :
      IsValue (.opener b :: (inside ++ .closer b :: ks))

namespace IsValue

variable {ks ls : List TokenKind}

theorem balanced (h : IsValue ks) : IsBalanced ks := by
  induction h with
  | none => exact .none
  | single hk _ _ ih => exact .single hk ih
  | group hi _ ih => exact .group hi ih

theorem append (h : IsValue ks) (h' : IsValue ls) : IsValue (ks ++ ls) := by
  induction h with
  | none => exact h'
  | single hk hc _ ih => exact .single hk hc ih
  | group hi _ ih =>
    rw [List.cons_append, List.append_assoc]
    exact .group hi ih

/-- Brackets around balanced kinds. -/
theorem brackets (b : Bracket) (h : IsBalanced ks) : IsValue (.opener b :: (ks ++ [.closer b])) :=
  .group h .none

end IsValue

namespace Lexed

variable {s : Lexed} {i : Nat} {b : Bracket} {rest : List TokenKind}

theorem kindAt_of_kindsFrom {k : TokenKind} {ks : List TokenKind} (h : s.kindsFrom i = k :: ks) : s.kindAt i = some k := by
  have hget := kindsFrom_getElem? s i 0
  rw [h] at hget
  exact hget.symm

theorem kindsFrom_of_append (ks : List TokenKind) (h : s.kindsFrom i = ks ++ rest) :
    s.kindsFrom (i + ks.length) = rest := by
  have hdrop : s.kindsFrom (i + ks.length) = (s.kindsFrom i).drop ks.length := by
    simp only [kindsFrom, ← List.map_drop, List.drop_drop]
  rw [hdrop, h, List.drop_left]

/-- The closer of brackets around balanced ones. -/
theorem IsMatched.closerOf_balanced (hm : s.IsMatched) {ks : List TokenKind} (hb : IsBalanced ks)
    (h : s.kindsFrom i = .opener b :: (ks ++ .closer b :: rest)) :
    s.closerOf i = some (i + 1 + ks.length) := by
  have hrest : s.kindsFrom (i + 1) = ks ++ .closer b :: rest := kindsFrom_of_append [_] h
  have hhere : closerDistance [b] (.closer b :: rest) = some 0 := by simp [closerDistance, nestStep]
  rw [hm.closerOf_of_opener (kindAt_of_kindsFrom h), hrest, hb.closerDistance (by simp), hhere]
  simp only [Option.map_some, Option.some.injEq]
  omega

end Lexed

end LiteralFill
