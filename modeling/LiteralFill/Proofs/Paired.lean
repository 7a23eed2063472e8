import LiteralFill.Proofs.Slices

/-!
Brackets that all have a partner. Where no closing bracket is a stray one, what stands between two places that
no inner brackets enclose is balanced, and the tokens of an element of a literal are those of a value.
-/

namespace LiteralFill

/-! ## No stray closers -/

namespace Matching

theorem step_stray (m : Matching) (index : Nat) (t : Token) : m.stray <+: (m.step index t).stray := by
  unfold step
  split
  · exact List.prefix_rfl
  · split
    · split
      · exact List.prefix_rfl
      · exact List.prefix_append _ _
    · exact List.prefix_append _ _
  · exact List.prefix_rfl

theorem run_stray (m : Matching) (index : Nat) (ts : List Token) : m.stray <+: (m.run index ts).stray := by
  induction ts generalizing m index with
  | nil => exact List.prefix_rfl
  | cons t ts ih => exact (step_stray m index t).trans (ih _ _)

/-- A closer that is no stray one closes the opener that waits innermost. -/
theorem step_closer {m : Matching} {index : Nat} {t : Token} {b : Bracket} (hk : t.kind = .closer b)
    (hstray : (m.step index t).stray = []) : ∃ i u rest, m.waiting = (i, u) :: rest ∧
      m.step index t = { m with waiting := rest, closers := m.closers.setIfInBounds i (some index) } := by
  cases hw : m.waiting with
  | nil => simp [step, hk, hw] at hstray
  | cons e rest =>
    obtain ⟨i, u⟩ := e
    by_cases hu : u.kind = .opener b
    · exact ⟨i, u, rest, rfl, by simp [step, hk, hw, hu]⟩
    · simp [step, hk, hw, hu] at hstray

/-- Without strays every closer closes something. -/
theorem run_paired {m : Matching} {index : Nat} {ts : List Token} (hv : m.IsValid index)
    (hsize : index ≤ m.closers.size) (hstray : (m.run index ts).stray = []) (hts : index + ts.length ≤ m.closers.size)
    {n : Nat} {t : Token} {b : Bracket} (ht : ts[n]? = some t) (hk : t.kind = .closer b) :
    ∃ i : Nat, (m.run index ts).closers[i]? = some (some (index + n)) := by
  induction ts generalizing m index n with
  | nil => cases ht
  | cons u ts ih =>
    have hstep : (m.step index u).stray = [] :=
      List.prefix_nil.mp (hstray ▸ run_stray (m.step index u) (index + 1) ts)
    rw [List.length_cons] at hts
    cases n with
    | zero =>
      obtain rfl : u = t := by simpa using ht
      obtain ⟨i, v, rest, hw, heq⟩ := step_closer hk hstep
      have hi : i < index := hv.before (i, v) (by simp [hw])
      have hdistinct := hv.distinct
      rw [hw, List.pairwise_cons] at hdistinct
      refine ⟨i, ?_⟩
      rw [run, run_closers_of_settled ts (Nat.lt_succ_of_lt hi), heq]
      · exact Array.getElem?_setIfInBounds_self_of_lt (by omega)
      · rw [heq]
        exact fun e he => (hdistinct.1 e he).symm
    | succ n =>
      have hclosers := run_closers_size m index [u]
      obtain ⟨i, hi⟩ := ih (n := n) (hv.step u) (by rw [show (m.step index u).closers.size = _ from hclosers]; omega)
        hstray (by rw [show (m.step index u).closers.size = _ from hclosers]; omega) ht
      exact ⟨i, by rw [run, hi]; congr 2; omega⟩

end Matching

namespace Lexed

/-- Every closing bracket closes something. -/
def IsPaired (s : Lexed) : Prop := ∀ c b, s.kindAt c = some (.closer b) → ∃ i, s.closerOf i = some c

/-- A text without problems among its characters and brackets. -/
theorem isPaired_ofText {text : List Char} (h : (ofText text).2 = []) : (ofText text).1.IsPaired := by
  have hstray : (Matching.ofTokens (tokenize text).1).stray = [] := by
    have hdiagnostics : (Matching.ofTokens (tokenize text).1).diagnostics = [] := (List.append_eq_nil_iff.mp h).2
    exact List.map_eq_nil_iff.mp (List.append_eq_nil_iff.mp hdiagnostics).1
  intro c b hk
  obtain ⟨t, ht⟩ := exists_token (kindAt_lt hk)
  have hkind := kind_of_token ht hk
  have ht' : (tokenize text).1[c]? = some t := by rw [← ht]; exact List.getElem?_toArray.symm
  have hv : (⟨[], Array.replicate (tokenize text).1.length none, []⟩ : Matching).IsValid 0 :=
    ⟨by simp, by simp, List.Pairwise.nil⟩
  obtain ⟨i, hi⟩ := Matching.run_paired hv (Nat.zero_le _) hstray (by simp) ht' hkind
  rw [Nat.zero_add] at hi
  exact ⟨i, by rw [closerOf, show (ofText text).1.closers[i]? = _ from hi]; rfl⟩

/-! ## Between clear places -/

variable {s : Lexed} (hm : s.IsMatched) (hp : s.IsPaired)
include hm

/-- No inner brackets are open at the end of the brackets themselves. -/
theorem IsMatched.isClear_closer {o c : Nat} (hc : s.closerOf o = some c) : s.IsClear o c := by
  intro j d hj hjc hd
  obtain ⟨b, -, hk, -⟩ := hm.opener_of_closerOf hd
  obtain ⟨d', hd', hd''⟩ := hm.inner hc hj hjc hk
  rw [hd] at hd''
  cases hd''
  exact hd'

include hp

/-- Outside inner brackets nothing closes. -/
theorem IsPaired.not_closer {o c i : Nat} (hc : s.closerOf o = some c) (ho : o < i) (hi : i < c)
    (hclear : s.IsClear o i) (b : Bracket) : s.kindAt i ≠ some (.closer b) := by
  intro hk
  obtain ⟨p, hpi⟩ := hp i b hk
  have hpos := (hm.closer_spec hpi).1
  rcases Nat.lt_trichotomy p o with h | rfl | h
  · obtain ⟨b', -, hk', -⟩ := hm.opener_of_closerOf hc
    obtain ⟨d, hd, hd'⟩ := hm.inner hpi h ho hk'
    rw [hc] at hd'
    cases hd'
    omega
  · rw [hc] at hpi
    cases hpi
    omega
  · exact Nat.lt_irrefl i (hclear p i h hpos hpi)

/-- At a place that no inner brackets enclose there is a token without a partner or a pair of brackets, and
neither does any enclose the place behind it. -/
theorem IsPaired.next {o c i : Nat} (hc : s.closerOf o = some c) (ho : o < i) (hi : i < c) (hclear : s.IsClear o i) :
    (∃ k, s.kindAt i = some k ∧ k.isBracket = false ∧ s.IsClear o (i + 1)) ∨
      ∃ b d, s.kindAt i = some (.opener b) ∧ s.closerOf i = some d ∧ s.kindAt d = some (.closer b) ∧ i < d ∧
        s.IsClear o (d + 1) := by
  obtain ⟨t, ht⟩ := exists_token (Nat.lt_trans hi (hm.closer_spec hc).2.1)
  have hk : s.kindAt i = some t.kind := by simp [kindAt, ht]
  cases hb : t.kind.isBracket with
  | false =>
    refine .inl ⟨t.kind, hk, hb, hclear.succ ?_⟩
    rw [hm i, hk]
    cases hkind : t.kind with
    | opener b => simp [hkind, TokenKind.isBracket] at hb
    | _ => rfl
  | true =>
    cases hkind : t.kind with
    | closer b => exact absurd (hkind ▸ hk) (IsPaired.not_closer hm hp hc ho hi hclear b)
    | opener b =>
      rw [hkind] at hk
      obtain ⟨d, -, hd⟩ := hm.inner hc ho hi hk
      obtain ⟨hid, -, b', hb', hclose⟩ := hm.closer_spec hd
      rw [hk, Option.some.injEq, TokenKind.opener.injEq] at hb'
      exact .inr ⟨b, d, hk, hd, hb' ▸ hclose, hid, hclear.past hm hd⟩
    | _ => simp [hkind, TokenKind.isBracket] at hb

omit hp in
theorem IsMatched.kindsBetween_group {i d j : Nat} {b : Bracket} (hk : s.kindAt i = some (.opener b))
    (hd : s.closerOf i = some d) (hclose : s.kindAt d = some (.closer b)) (hdj : d < j) :
    s.kindsBetween i j = .opener b :: (s.kindsBetween (i + 1) d ++ .closer b :: s.kindsBetween (d + 1) j) := by
  have hid := (hm.closer_spec hd).1
  rw [kindsBetween_cons hk (Nat.lt_trans hid hdj), kindsBetween_append s (show i + 1 ≤ d from hid) (Nat.le_of_lt hdj),
    kindsBetween_cons hclose hdj]

/-- What stands between two places outside inner brackets is balanced. -/
theorem IsPaired.isBalanced {o c i j : Nat} (hc : s.closerOf o = some c) (ho : o < i) (hij : i ≤ j) (hj : j ≤ c)
    (hi : s.IsClear o i) (hj' : s.IsClear o j) : IsBalanced (s.kindsBetween i j) := by
  induction hn : j - i using Nat.strongRecOn generalizing o c i j with
  | ind n ih =>
    rcases Nat.eq_or_lt_of_le hij with rfl | hlt
    · rw [kindsBetween_self]
      exact .none
    rcases IsPaired.next hm hp hc ho (by omega) hi with ⟨k, hk, hb, hnext⟩ | ⟨b, d, hk, hd, hclose, hid, hnext⟩
    · rw [kindsBetween_cons hk hlt]
      exact .single hb (ih _ (by omega) hc (by omega) hlt hj hnext hj' rfl)
    · have hdj := hj' i d ho hlt hd
      rw [hm.kindsBetween_group hk hd hclose hdj]
      exact .group
        (ih _ (by omega) hd (Nat.lt_succ_self i) hid (Nat.le_refl d) (isClear_start s i) (hm.isClear_closer hd) rfl)
        (ih _ (by omega) hc (by omega) hdj hj hnext hj' rfl)

/-- What stands between brackets is balanced. -/
theorem IsPaired.isBalanced_inside {o c : Nat} (hc : s.closerOf o = some c) : IsBalanced (s.kindsBetween (o + 1) c) :=
  IsPaired.isBalanced hm hp hc (Nat.lt_succ_self o) (hm.closer_spec hc).1 (Nat.le_refl c) (isClear_start s o)
    (hm.isClear_closer hc)

/-- Without a comma outside inner brackets it is a value. -/
theorem IsPaired.isValue {o c i j : Nat} (hc : s.closerOf o = some c) (ho : o < i) (hij : i ≤ j) (hj : j ≤ c)
    (hi : s.IsClear o i) (hj' : s.IsClear o j)
    (hcomma : ∀ k, i ≤ k → k < j → s.IsClear o k → s.kindAt k ≠ some .comma) : IsValue (s.kindsBetween i j) := by
  induction hn : j - i using Nat.strongRecOn generalizing i with
  | ind n ih =>
    rcases Nat.eq_or_lt_of_le hij with rfl | hlt
    · rw [kindsBetween_self]
      exact .none
    rcases IsPaired.next hm hp hc ho (by omega) hi with ⟨k, hk, hb, hnext⟩ | ⟨b, d, hk, hd, hclose, hid, hnext⟩
    · have hne : k ≠ .comma := fun h => hcomma i (Nat.le_refl i) hlt hi (h ▸ hk)
      rw [kindsBetween_cons hk hlt]
      exact .single hb hne (ih _ (by omega) (by omega) hlt hnext (fun k hk => hcomma k (by omega)) rfl)
    · have hdj := hj' i d ho hlt hd
      rw [hm.kindsBetween_group hk hd hclose hdj]
      exact .group (IsPaired.isBalanced_inside hm hp hd)
        (ih _ (by omega) (by omega) hdj hnext (fun k hk => hcomma k (by omega)) rfl)

end Lexed

/-! ## Elements -/

section

variable {s : Lexed} (hm : s.IsMatched) {lbrace rbrace : Nat}
include hm

/-- The colon of a key stands outside inner brackets. -/
theorem keyColon_clear {first last fuel i colon : Nat} (hi : s.IsClear lbrace i) (hlast : s.IsClear lbrace (last + 1))
    (hli : lbrace < i) (h : keyColon s first last fuel i = some colon) : s.IsClear lbrace colon := by
  induction fuel generalizing i with
  | zero => cases h
  | succ fuel ih =>
    rw [keyColon] at h
    split at h
    · next hle =>
      split at h
      · next hcolon =>
        split at h
        · cases h
          exact hi
        · exact ih (hi.succ (by rw [hm i, hcolon])) (by omega) h
      · next b hopen =>
        have hskip := hm.lt_skipGroup (show i < last + 1 by omega)
        refine ih ?_ (by omega) h
        cases hc : s.closerOf i with
        | none => simpa [Lexed.skipGroup, hc] using hlast
        | some c => simpa [Lexed.skipGroup, hc] using hi.past hm hc
      · next hno =>
        refine ih (hi.succ ?_) (by omega) h
        rw [hm i]
        split
        · next b hb => exact absurd hb (hno b)
        · rfl
    · cases h

end

end LiteralFill
