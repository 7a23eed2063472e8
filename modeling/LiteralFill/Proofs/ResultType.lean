import LiteralFill.Proofs.Balance
import LiteralFill.Proofs.Walk

/-!
The tokens of the result of a function. Outside brackets they are those of types; each `func` among them
opens a header of its own, and only one header is taken by the brace of the body.
-/

namespace LiteralFill

/-- A stretch of balanced kinds without declarations. -/
theorem Lexed.IsMatched.balanced {s : Lexed} {i : Nat} {rest : List TokenKind} (hm : s.IsMatched)
    {ks : List TokenKind} (hb : IsBalanced ks) (hd : ∀ k ∈ ks, k.isDeclaring = false)
    (h : s.kindsFrom i = ks ++ rest) : s.Balanced i (i + ks.length) := by
  induction hb generalizing i rest with
  | none => exact .none i
  | @single k ks hk _ ih =>
    have ho : k.isOrdinary := by
      have hdecl := hd k (by simp)
      cases k with
      | opener b => cases hk
      | closer b => cases hk
      | keyword w => cases w <;> first | rfl | cases hdecl
      | _ => rfl
    have hnext := ih (fun k hk => hd k (by simp [hk])) (kindsFrom_of_append [k] h)
    rw [List.length_singleton, Nat.add_right_comm] at hnext
    exact .single (kindAt_of_kindsFrom h) ho hnext
  | @group b inside ks hi _ ih ih' =>
    rw [List.cons_append, List.append_assoc] at h
    have hinner : s.kindsFrom (i + 1) = inside ++ (.closer b :: ks ++ rest) :=
      kindsFrom_of_append [_] h
    have hafter := kindsFrom_of_append _ hinner
    have hrest := ih' (fun k hk => hd k (by simp [hk])) (kindsFrom_of_append [_] hafter)
    have hin := ih (fun k hk => hd k (by simp [hk])) hinner
    refine .group (kindAt_of_kindsFrom h) (hm.closerOf_balanced hi h) hin ?_
    rw [List.length_singleton] at hrest
    have hlen : i + (TokenKind.opener b :: (inside ++ .closer b :: ks)).length =
        i + 1 + inside.length + 1 + ks.length := by
      simp only [List.length_cons, List.length_append]
      omega
    rw [hlen]
    exact hrest

/-! ## The tokens of a result -/

/-- Kinds that the tokens of a result may have, and how many `func` stand outside its brackets. -/
inductive IsResult : List TokenKind → Nat → Prop
  | none : IsResult [] 0
  | plain {k : TokenKind} {ks : List TokenKind} {n : Nat} (hk : k.isPlain)
      (hf : k ≠ .keyword .funcWord) (rest : IsResult ks n) : IsResult (k :: ks) n
  | func {ks : List TokenKind} {n : Nat} (rest : IsResult ks n) :
      IsResult (.keyword .funcWord :: ks) (n + 1)
  | group {b : Bracket} {inside ks : List TokenKind} {n : Nat} (hb : b ≠ .brace)
      (hi : IsBalanced inside) (hd : ∀ k ∈ inside, k.isDeclaring = false) (rest : IsResult ks n) :
      IsResult (.opener b :: (inside ++ .closer b :: ks)) n
  | body {w : Keyword} {inside ks : List TokenKind} {n : Nat}
      (hw : w = .structWord ∨ w = .interfaceWord) (hi : IsBalanced inside) (rest : IsResult ks n) :
      IsResult (.keyword w :: .opener .brace :: (inside ++ .closer .brace :: ks)) n

namespace Outline

variable {s : Lexed} {o : Outline} {t : Token}

/-- The pass stands outside all brackets and literals, with headers of functions only, one of them at
least. -/
structure InResult (n : Nat) (o : Outline) : Prop where
  depth : o.depth = 0
  openLiterals : o.openLiterals = []
  headers : o.headers = List.replicate (n + 1) ⟨0, 0, true⟩

/-- Nothing is a literal there. -/
theorem InResult.literalHere_eq_none {n : Nat} (h : InResult n o) : literalHere s o = none := by
  have hblock : ∀ type, o.isBlock type = true := by
    intro type
    unfold isBlock headerHere level
    rw [h.headers, h.depth, h.openLiterals]
    rfl
  cases he : literalHere s o with
  | none => rfl
  | some e =>
    obtain ⟨l, lb, rb, ds⟩ := e
    obtain ⟨type, -, -, hb, -⟩ := literalHere_eq_some.mp he
    rw [hblock] at hb
    cases hb

theorem InResult.isNext {n : Nat} (h : InResult n o) (t : Token) : IsNext s t o (step s t o) :=
  step_isNext (.inr h.literalHere_eq_none)

theorem InResult.headersOver {n : Nat} (h : InResult n o) : HeadersOver [] o := by
  refine ⟨⟨o.headers, by simp, fun x hx => ?_⟩, by simp⟩
  rw [h.headers] at hx
  rw [List.eq_of_mem_replicate hx, h.depth]
  exact ⟨rfl, congrArg List.length h.openLiterals.symm⟩

theorem InResult.of_returns {n : Nat} {o' : Outline} (h : InResult n o) (hr : Returns s o o') :
    InResult n o' :=
  ⟨hr.depth.trans h.depth, hr.openLiterals.trans h.openLiterals, hr.headers.trans h.headers⟩

/-- A plain token other than `func` changes nothing. -/
theorem InResult.plain {n : Nat} (h : InResult n o) (hk : t.kind.isPlain)
    (hf : t.kind ≠ .keyword .funcWord) :
    InResult n (step s t o) ∧ (step s t o).index = o.index + 1 := by
  have hn := h.isNext (s := s) t
  have hsame : nextIndex s t o = o.index + 1 ∧ nextDepth t o = o.depth ∧
      nextOpen t o = o.openLiterals ∧ nextHeaders t o = o.headers := by
    obtain ⟨kind, start, text⟩ := t
    cases kind with
    | keyword w =>
      cases w with
      | funcWord => exact absurd rfl hf
      | mapWord => exact ⟨rfl, rfl, rfl, rfl⟩
      | chanWord => exact ⟨rfl, rfl, rfl, rfl⟩
      | _ => cases hk
    | ident => exact ⟨rfl, rfl, rfl, rfl⟩
    | dot => exact ⟨rfl, rfl, rfl, rfl⟩
    | star => exact ⟨rfl, rfl, rfl, rfl⟩
    | arrow => exact ⟨rfl, rfl, rfl, rfl⟩
    | _ => cases hk
  obtain ⟨h1, h2, h3, h4⟩ := hsame
  exact ⟨⟨hn.depth.trans (h2.trans h.depth), hn.openLiterals.trans (h3.trans h.openLiterals),
    hn.headers.trans (h4.trans h.headers)⟩, hn.index.trans h1⟩

/-- Each `func` opens one more header. -/
theorem InResult.func {n : Nat} (h : InResult n o) (hk : t.kind = .keyword .funcWord) :
    InResult (n + 1) (step s t o) ∧ (step s t o).index = o.index + 1 := by
  have hn := h.isNext (s := s) t
  obtain ⟨kind, start, text⟩ := t
  cases hk
  refine ⟨⟨hn.depth.trans h.depth, hn.openLiterals.trans h.openLiterals, ?_⟩, hn.index⟩
  rw [hn.headers, List.replicate_succ]
  show (⟨o.depth, o.level, true⟩ :: o.headers : List Header) = _
  rw [h.headers, h.depth, level, h.openLiterals]
  rfl

/-- The body of a struct or an interface is stepped over. -/
theorem InResult.body {n c : Nat} (h : InResult n o)
    (hk : t.kind = .keyword .structWord ∨ t.kind = .keyword .interfaceWord)
    (hb : s.kindAt (o.index + 1) = some (.opener .brace)) (hc : s.closerOf (o.index + 1) = some c) :
    InResult n (step s t o) ∧ (step s t o).index = c + 1 := by
  have hn := h.isNext (s := s) t
  have hend : bodyEnd s o.index = c + 1 := by
    unfold bodyEnd Lexed.skipGroup
    rw [if_pos hb, hc]
  obtain ⟨kind, start, text⟩ := t
  rcases hk with rfl | rfl
  · exact ⟨⟨hn.depth.trans h.depth, hn.openLiterals.trans h.openLiterals, hn.headers.trans h.headers⟩,
      hn.index.trans hend⟩
  · exact ⟨⟨hn.depth.trans h.depth, hn.openLiterals.trans h.openLiterals, hn.headers.trans h.headers⟩,
      hn.index.trans hend⟩

/-- The pass goes through a result and keeps a header for each `func` outside its brackets. -/
theorem goes_result (hm : s.IsMatched) {ks rest : List TokenKind} {m n : Nat} (hr : IsResult ks n)
    (h : InResult m o) (hks : s.kindsFrom o.index = ks ++ rest) :
    ∃ o', Goes s o o' ∧ InResult (m + n) o' ∧ o'.index = o.index + ks.length := by
  induction hr generalizing o m rest with
  | none => exact ⟨o, Goes.refl s o, h, rfl⟩
  | @plain k ks n hk hf _ ih =>
    have hkind := Lexed.kindAt_of_kindsFrom hks
    obtain ⟨t, ht, rfl⟩ := Option.map_eq_some_iff.mp hkind
    obtain ⟨hstep, hindex⟩ := h.plain (s := s) hk hf
    obtain ⟨o', hgo, hin, hlast⟩ := ih hstep (hindex ▸ Lexed.kindsFrom_of_append [_] hks)
    refine ⟨o', (Goes.step hm ht).trans hgo, hin, ?_⟩
    rw [hlast, hindex, List.length_cons]
    omega
  | @func ks n _ ih =>
    have hkind := Lexed.kindAt_of_kindsFrom hks
    obtain ⟨t, ht, hk⟩ := Option.map_eq_some_iff.mp hkind
    obtain ⟨hstep, hindex⟩ := h.func (s := s) hk
    obtain ⟨o', hgo, hin, hlast⟩ := ih hstep (hindex ▸ Lexed.kindsFrom_of_append [_] hks)
    refine ⟨o', (Goes.step hm ht).trans hgo, ?_, ?_⟩
    · rwa [Nat.add_assoc, Nat.add_comm 1] at hin
    · rw [hlast, hindex, List.length_cons]
      omega
  | @group b inside ks n hb hi hd _ ih =>
    rw [List.cons_append, List.append_assoc] at hks
    have hkind := Lexed.kindAt_of_kindsFrom hks
    obtain ⟨t, ht, hk⟩ := Option.map_eq_some_iff.mp hkind
    have hc := hm.closerOf_balanced hi hks
    have hinner : s.kindsFrom (o.index + 1) = inside ++ (.closer b :: ks ++ rest) :=
      Lexed.kindsFrom_of_append [_] hks
    have hbal := hm.balanced hi hd hinner
    obtain ⟨p, hp, hpi⟩ := returns_nested hm h.headersOver ht hk hb (.inr h.literalHere_eq_none) hc
      fun p hpi hpo hph => passes_balanced hm hbal hc (Nat.lt_succ_self _) hpi hph
        (by rw [hpo, h.openLiterals]; simp)
    have hafter := Lexed.kindsFrom_of_append [_] (Lexed.kindsFrom_of_append _ hinner)
    obtain ⟨o', hgo, hin, hlast⟩ := ih (h.of_returns hp) (hpi ▸ hafter)
    refine ⟨o', hp.toGoes.trans hgo, hin, ?_⟩
    rw [hlast, hpi]
    simp only [List.length_cons, List.length_append]
    omega
  | @body w inside ks n hw hi _ ih =>
    rw [List.cons_append, List.cons_append, List.append_assoc] at hks
    have hkind := Lexed.kindAt_of_kindsFrom hks
    obtain ⟨t, ht, hk⟩ := Option.map_eq_some_iff.mp hkind
    have hbrace : s.kindsFrom (o.index + 1) = .opener .brace :: (inside ++ .closer .brace :: (ks ++ rest)) :=
      Lexed.kindsFrom_of_append [_] hks
    have hc := hm.closerOf_balanced hi hbrace
    obtain ⟨hstep, hindex⟩ := h.body (s := s) (t := t) (by rw [hk]; simpa using hw)
      (Lexed.kindAt_of_kindsFrom hbrace) hc
    have hinner : s.kindsFrom (o.index + 1 + 1) = inside ++ (.closer .brace :: (ks ++ rest)) :=
      Lexed.kindsFrom_of_append [_] hbrace
    have hafter := Lexed.kindsFrom_of_append [_] (Lexed.kindsFrom_of_append _ hinner)
    obtain ⟨o', hgo, hin, hlast⟩ := ih hstep (hindex ▸ hafter)
    refine ⟨o', (Goes.step hm ht).trans hgo, hin, ?_⟩
    rw [hlast, hindex]
    simp only [List.length_cons, List.length_append]
    omega

end Outline

end LiteralFill
