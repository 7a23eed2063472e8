import LiteralFill.Proofs.Balance
import LiteralFill.Proofs.Nesting

/-!
Two texts that differ between a pair of braces only. What stands outside the braces is read alike in both, and
a reader that comes to the braces passes over them, so a literal with these braces in one of the texts is one
in the other.
-/

namespace LiteralFill

/-! ## The beginning of a text -/

theorem takeBytes_append {n : Nat} {x : List Char} (h : n ≤ byteLength x) (y : List Char) :
    takeBytes n (x ++ y) = takeBytes n x := by
  induction x generalizing n with
  | nil =>
    obtain rfl : n = 0 := Nat.le_zero.mp h
    cases y with
    | nil => rfl
    | cons c y => simp [takeBytes]
  | cons c x ih =>
    rw [byteLength] at h
    by_cases hn : n = 0
    · simp [takeBytes, hn]
    · rw [List.cons_append, takeBytes, takeBytes, if_neg hn, if_neg hn, ih (by omega)]

/-- A position between two characters of a text. -/
def IsBoundary (text : List Char) (p : Nat) : Prop := ∃ x y, text = x ++ y ∧ p = byteLength x

/-- Two texts that begin alike have the same slices there. -/
theorem slice_append {pre r : List Char} (r' : List Char) {a b : Nat} (ha : IsBoundary (pre ++ r) a) (hab : a ≤ b)
    (hb : b ≤ byteLength pre) : slice (pre ++ r') ⟨a, b⟩ = slice (pre ++ r) ⟨a, b⟩ := by
  obtain ⟨x, y, hxy, rfl⟩ := ha
  obtain ⟨z, rfl⟩ : ∃ z, pre = x ++ z := by
    rcases List.append_eq_append_iff.mp hxy with ⟨w, rfl, -⟩ | ⟨w, rfl, -⟩
    · rw [byteLength_append] at hab
      have hw : w = [] := by
        cases w with
        | nil => rfl
        | cons c w =>
          have := Char.utf8Size_pos c
          simp only [byteLength] at hab
          omega
      exact ⟨[], by simp [hw]⟩
    · exact ⟨w, rfl⟩
  rw [byteLength_append] at hb
  have hle : b - byteLength x ≤ byteLength z := by omega
  unfold slice Span.length
  rw [List.append_assoc, List.append_assoc, dropBytes_byteLength, dropBytes_byteLength, takeBytes_append hle,
    takeBytes_append hle]

namespace Lexed

theorem IsRead.boundary {s : Lexed} (hs : s.IsRead) {i : Nat} (hi : i < s.size) :
    IsBoundary s.text (s.startAt i) := by
  obtain ⟨t, ht⟩ := exists_token hi
  obtain ⟨x, y, hxy, hp⟩ := tokensFrom_place (hs.mem ht)
  rw [lexemesText_lexemes] at hxy
  exact ⟨x, _, hxy, by simp [startAt, ht, hp]⟩

/-! ## Replaced braces -/

/-- Two texts that begin and end alike. In between each has a pair of braces around balanced tokens, of which
there are `m` in the first text and `m'` in the second. The opening brace is the token `n` and stands at the
end of what they begin with. -/
structure IsReplaced (s s' : Lexed) (n m m' : Nat) : Prop where
  read : s.IsRead
  read' : s'.IsRead
  before {i : Nat} : i ≤ n → s'.tokens[i]? = s.tokens[i]?
  behind (i : Nat) : s'.tokens[n + 1 + m' + i]?.map (fun t => (t.kind, t.text)) =
    s.tokens[n + 1 + m + i]?.map (fun t => (t.kind, t.text))
  brace : s.kindAt n = some (.opener .brace)
  inside : ∃ ks rest, IsBalanced ks ∧ ks.length = m ∧ s.kindsFrom (n + 1) = ks ++ .closer .brace :: rest
  inside' : ∃ ks rest, IsBalanced ks ∧ ks.length = m' ∧ s'.kindsFrom (n + 1) = ks ++ .closer .brace :: rest
  text : ∃ pre r r', s.text = pre ++ r ∧ s'.text = pre ++ r' ∧ s.startAt n = byteLength pre
  noBody : s.kindAt (n - 1) ≠ some (.keyword .structWord)

namespace IsReplaced

variable {s s' : Lexed} {n m m' : Nat} (h : IsReplaced s s' n m m')
include h

theorem kindAt {i : Nat} (hi : i ≤ n) : s'.kindAt i = s.kindAt i := by rw [Lexed.kindAt, h.before hi, Lexed.kindAt]

theorem kindsFrom_behind {i : Nat} (hi : n + 1 + m ≤ i) : s'.kindsFrom (i - m + m') = s.kindsFrom i := by
  refine List.ext_getElem? fun k => ?_
  obtain ⟨j, rfl⟩ : ∃ j, i = n + 1 + m + j := ⟨i - (n + 1 + m), by omega⟩
  have hget := congrArg (Option.map Prod.fst) (h.behind (j + k))
  simp only [Option.map_map] at hget
  rw [kindsFrom_getElem?, kindsFrom_getElem?]
  have hsub : n + 1 + m + j - m + m' + k = n + 1 + m' + (j + k) := by omega
  have hadd : n + 1 + m + j + k = n + 1 + m + (j + k) := by omega
  rw [hsub, hadd]
  exact hget

theorem closer : s.kindAt (n + 1 + m) = some (.closer .brace) := by
  obtain ⟨ks, rest, -, rfl, hks⟩ := h.inside
  exact kindAt_of_kindsFrom (kindsFrom_of_append ks hks)

/-- What follows the place `i` before the braces, up to them. -/
theorem kindsFrom_before {i : Nat} (hi : i ≤ n) : ∃ ks, ks.length = n - i ∧
    s.kindsFrom i = ks ++ s.kindsFrom n ∧ s'.kindsFrom i = ks ++ s'.kindsFrom n := by
  have hlt := kindAt_lt h.brace
  have hlength : ((s.kindsFrom i).take (n - i)).length = n - i := by
    rw [List.length_take, kindsFrom, List.length_map, List.length_drop, Array.length_toList]
    unfold Lexed.size at hlt
    omega
  refine ⟨(s.kindsFrom i).take (n - i), hlength, kindsFrom_eq_append s hi, ?_⟩
  have hsame : (s'.kindsFrom i).take (n - i) = (s.kindsFrom i).take (n - i) := by
    refine List.ext_getElem? fun k => ?_
    rw [List.getElem?_take, List.getElem?_take]
    split
    · rw [kindsFrom_getElem?, kindsFrom_getElem?, h.kindAt (by omega)]
    · rfl
  rw [← hsame]
  exact kindsFrom_eq_append s' hi

/-- The braces with what is between them, in both texts, and what follows in both. -/
theorem kindsFrom_brace : ∃ ks ks' rest, IsBalanced ks ∧ IsBalanced ks' ∧ ks.length = m + 2 ∧ ks'.length = m' + 2 ∧
    s.kindsFrom n = ks ++ rest ∧ s'.kindsFrom n = ks' ++ rest := by
  obtain ⟨ks, rest, hb, hlen, hks⟩ := h.inside
  obtain ⟨ks', rest', hb', hlen', hks'⟩ := h.inside'
  have hbehind := h.kindsFrom_behind (Nat.le_refl (n + 1 + m))
  have hend : s.kindsFrom (n + 1 + m) = .closer .brace :: rest := hlen ▸ kindsFrom_of_append ks hks
  have hend' : s'.kindsFrom (n + 1 + m') = .closer .brace :: rest' := hlen' ▸ kindsFrom_of_append ks' hks'
  rw [Nat.add_sub_cancel, hend, hend', List.cons.injEq] at hbehind
  obtain ⟨-, rfl⟩ := hbehind
  refine ⟨.opener .brace :: (ks ++ [.closer .brace]), .opener .brace :: (ks' ++ [.closer .brace]), rest',
    .group hb .none, .group hb' .none, by simp [hlen], by simp [hlen'], ?_, ?_⟩
  · rw [kindsFrom_cons h.brace, hks]
    simp
  · rw [kindsFrom_cons ((h.kindAt (Nat.le_refl n)).trans h.brace), hks']
    simp

theorem closerOf_brace : s.closerOf n = some (n + 1 + m) ∧ s'.closerOf n = some (n + 1 + m') := by
  obtain ⟨ks, rest, hb, rfl, hks⟩ := h.inside
  obtain ⟨ks', rest', hb', rfl, hks'⟩ := h.inside'
  constructor
  · exact h.read.matched.closerOf_balanced hb (by rw [kindsFrom_cons h.brace, hks])
  · exact h.read'.matched.closerOf_balanced hb'
      (by rw [kindsFrom_cons ((h.kindAt (Nat.le_refl n)).trans h.brace), hks'])

/-- Brackets before the braces close before them, or behind them at corresponding places. -/
theorem closerOf_before {i : Nat} (hi : i < n) : s'.closerOf i = s.closerOf i ∧ (∀ c ∈ s.closerOf i, c < n) ∨
    ∃ c, s.closerOf i = some c ∧ n + 1 + m < c ∧ s'.closerOf i = some (c - m + m') := by
  cases hk : s.kindAt i with
  | none =>
    have hnone : s.closerOf i = none := by rw [h.read.matched i, hk]
    refine .inl ⟨?_, by simp [hnone]⟩
    rw [hnone, h.read'.matched i, h.kindAt (Nat.le_of_lt hi), hk]
  | some k =>
    cases k with
    | opener b =>
      rw [h.read.matched.closerOf_of_opener hk,
        h.read'.matched.closerOf_of_opener ((h.kindAt (Nat.le_of_lt hi)).trans hk)]
      obtain ⟨us, hlen, hus, hus'⟩ := h.kindsFrom_before (show i + 1 ≤ n from hi)
      obtain ⟨ks, ks', rest, hb, hb', hlenks, hlenks', hks, hks'⟩ := h.kindsFrom_brace
      rw [hus, hus', closerDistance_append, closerDistance_append]
      cases hd : closerDistance [b] us with
      | some d =>
        refine .inl ⟨rfl, ?_⟩
        have := closerDistance_lt hd
        rintro c ⟨⟩
        show d + (i + 1) < n
        omega
      | none =>
        have hstack : nest [b] us ≠ [] := nest_ne_nil (by simp) hd
        rw [hks, hks', hb.closerDistance hstack, hb'.closerDistance hstack]
        cases closerDistance (nest [b] us) rest with
        | none => exact .inl ⟨rfl, by simp⟩
        | some d =>
          refine .inr ⟨_, rfl, ?_, ?_⟩
          · show n + 1 + m < d + ks.length + us.length + (i + 1)
            omega
          · show some (d + ks'.length + us.length + (i + 1)) =
              some (d + ks.length + us.length + (i + 1) - m + m')
            congr 1
            omega
    | _ =>
      have hnone : s.closerOf i = none := by rw [h.read.matched i, hk]
      refine .inl ⟨?_, by simp [hnone]⟩
      rw [hnone, h.read'.matched i, h.kindAt (Nat.le_of_lt hi), hk]

/-- Brackets behind the braces close at corresponding places. -/
theorem closerOf_behind {i : Nat} (hi : n + 1 + m ≤ i) :
    s'.closerOf (i - m + m') = (s.closerOf i).map fun c => c - m + m' := by
  have hkinds := h.kindsFrom_behind hi
  have hkinds' := h.kindsFrom_behind (show n + 1 + m ≤ i + 1 by omega)
  have hsub : i + 1 - m + m' = i - m + m' + 1 := by omega
  rw [hsub] at hkinds'
  have hk : s'.kindAt (i - m + m') = s.kindAt i := by
    have := congrArg (·[0]?) hkinds
    simpa only [kindsFrom_getElem?, Nat.add_zero] using this
  rw [h.read.matched i, h.read'.matched, hk]
  cases s.kindAt i with
  | none => rfl
  | some k =>
    cases k with
    | opener b =>
      have hmove : (fun d => d + (i - m + m' + 1)) = (fun c => c - m + m') ∘ fun d => d + (i + 1) := by
        funext d
        simp only [Function.comp_apply]
        omega
      rw [hkinds', hmove]
      exact (Option.map_map ..).symm
    | _ => rfl

theorem size : s'.size + m = s.size + m' ∧ n + 1 + m < s.size := by
  have hlt := kindAt_lt h.closer
  have hlength := congrArg List.length (h.kindsFrom_behind (Nat.le_refl (n + 1 + m)))
  simp only [kindsFrom, List.length_map, List.length_drop, Array.length_toList] at hlength
  unfold Lexed.size at hlt ⊢
  omega

theorem startAt {i : Nat} (hi : i ≤ n) : s'.startAt i = s.startAt i := by
  have hlt := kindAt_lt h.brace
  obtain ⟨t, ht⟩ := exists_token (show i < s.size by omega)
  simp [Lexed.startAt, h.before hi, ht]

theorem stopBefore {i : Nat} (hi : i ≤ n) : s'.stopBefore i = s.stopBefore i := by
  cases i with
  | zero => rfl
  | succ i =>
    have hlt := kindAt_lt h.brace
    obtain ⟨t, ht⟩ := exists_token (show i < s.size by omega)
    simp [Lexed.stopBefore, Lexed.stopAt, h.before (show i ≤ n by omega), ht]

/-- Slices up to the braces are the same. -/
theorem slice {i j : Nat} (hij : i < j) (hj : j ≤ n) :
    LiteralFill.slice s'.text ⟨s.startAt i, s.stopBefore j⟩ =
      LiteralFill.slice s.text ⟨s.startAt i, s.stopBefore j⟩ := by
  obtain ⟨pre, r, r', htext, htext', hpre⟩ := h.text
  have hlt := kindAt_lt h.brace
  obtain ⟨k, rfl⟩ : ∃ k, j = k + 1 := ⟨j - 1, by omega⟩
  have hstop : s.stopBefore (k + 1) ≤ byteLength pre := hpre ▸ h.read.stop_le_start (by omega) hlt
  have hstart : s.startAt i ≤ s.stopBefore (k + 1) :=
    Nat.le_trans (h.read.start_le_start (by omega) (by omega)) (start_le_stop (by omega))
  have hboundary := h.read.boundary (show i < s.size by omega)
  rw [htext] at hboundary
  rw [htext, htext']
  exact slice_append r' hboundary hstart hstop

/-- Tokens up to the opening brace correspond to themselves, and tokens from the closing brace on to those
behind the other one. What is between the braces corresponds to nothing. -/
def alignment : Alignment s s' where
  pairs i i' := i ≤ n ∧ i = i' ∨ n + 1 + m ≤ i ∧ i' = i - m + m'
  exact i := i ≤ n
  lost i := n < i
  move := id
  token := by
    rintro i _ (⟨hi, rfl⟩ | ⟨hi, rfl⟩)
    · rw [h.before hi]
    · obtain ⟨j, rfl⟩ : ∃ j, i = n + 1 + m + j := ⟨i - (n + 1 + m), by omega⟩
      have hsub : n + 1 + m + j - m + m' = n + 1 + m' + j := by omega
      rw [hsub]
      exact h.behind j
  next := by
    rintro i _ (⟨hi, rfl⟩ | ⟨hi, rfl⟩) hk
    · have hne : i ≠ n := by
        rintro rfl
        exact hk h.brace
      exact .inl ⟨by omega, rfl⟩
    · exact .inr ⟨by omega, by omega⟩
  enter := by
    rintro i _ (⟨hi, rfl⟩ | ⟨hi, rfl⟩)
    · rcases Nat.lt_or_eq_of_le hi with hlt | rfl
      · exact .inl (.inl ⟨hlt, rfl⟩)
      · exact .inr (Nat.lt_succ_self i)
    · exact .inl (.inr ⟨by omega, by omega⟩)
  body := by
    rintro i _ (⟨hi, rfl⟩ | ⟨hi, rfl⟩) hk hb
    · have hne : i ≠ n := by
        rintro rfl
        rw [h.brace] at hk
        cases hk
      have hne' : i + 1 ≠ n := by
        rintro rfl
        exact h.noBody hk
      exact .inl ⟨by omega, rfl⟩
    · exact .inr ⟨by omega, by omega⟩
  close := by
    rintro i _ (⟨hi, rfl⟩ | ⟨hi, rfl⟩)
    · rcases Nat.lt_or_eq_of_le hi with hlt | rfl
      · rcases h.closerOf_before hlt with ⟨hsame, hbefore⟩ | ⟨c, hc, hbehind, hc'⟩
        · rw [hsame]
          cases hc : s.closerOf i with
          | none => exact .inl ⟨rfl, rfl⟩
          | some c => exact .inr ⟨c, c, rfl, rfl, .inl ⟨Nat.le_of_lt (hbefore c hc), rfl⟩⟩
        · exact .inr ⟨c, _, hc, hc', .inr ⟨by omega, rfl⟩⟩
      · obtain ⟨hc, hc'⟩ := h.closerOf_brace
        exact .inr ⟨_, _, hc, hc', .inr ⟨Nat.le_refl _, by omega⟩⟩
    · rw [h.closerOf_behind hi]
      cases hc : s.closerOf i with
      | none => exact .inl ⟨rfl, rfl⟩
      | some c =>
        have := (h.read.matched.closer_spec hc).1
        exact .inr ⟨c, _, rfl, rfl, .inr ⟨by omega, rfl⟩⟩
  order := by
    rintro i _ j _ (⟨hi, rfl⟩ | ⟨hi, rfl⟩) (⟨hj, rfl⟩ | ⟨hj, rfl⟩) <;> omega
  size := .inr ⟨by have := h.size; omega, by have := h.size; omega⟩
  before := by
    rintro i _ (⟨hi, rfl⟩ | ⟨hi, rfl⟩) hk
    · exact ⟨Iff.rfl, h.kindAt (by omega)⟩
    · have hne : i ≠ n + 1 + m := by
        rintro rfl
        rw [h.closer] at hk
        cases hk
      refine ⟨by omega, ?_⟩
      have hkinds := congrArg (·[0]?) (h.kindsFrom_behind (show n + 1 + m ≤ i - 1 by omega))
      simp only [kindsFrom_getElem?, Nat.add_zero] at hkinds
      rw [← hkinds]
      congr 1
      omega
  exact_of_le hj hij := Nat.le_trans hij hj
  exact_sub := by
    rintro i _ j _ (⟨hi, rfl⟩ | ⟨hi, rfl⟩) (⟨hj, rfl⟩ | ⟨hj, rfl⟩) hx <;> omega
  slice := by
    rintro i _ j _ (⟨hi, rfl⟩ | ⟨hi, rfl⟩) (⟨hj, rfl⟩ | ⟨hj, rfl⟩) hij hx
    · rw [h.startAt hi, h.stopBefore hj]
      exact h.slice hij hj
    · omega
    · omega
    · omega
  start := by
    rintro i _ j _ (⟨hi, rfl⟩ | ⟨hi, rfl⟩) _ hij hx
    · exact h.startAt hi
    · omega
  stop := by
    rintro i _ j _ _ (⟨hj, rfl⟩ | ⟨hj, rfl⟩) hij hx
    · exact h.stopBefore hj
    · omega
  lost_of_le hl hij := Nat.lt_of_lt_of_le hl hij
  not_lost hx := Nat.not_lt.mpr hx

/-! ## The literal with the braces -/

/-- What the other text has for a literal between the braces: its type at the same place, and what the other braces
enclose. -/
structure IsRenewed (s' : Lexed) (n m' : Nat) (l l' : CompositeLiteral) : Prop where
  type : l'.type = l.type
  typeSpan : l'.typeSpan = l.typeSpan
  lbrace : l'.lbrace = l.lbrace
  rbrace : l'.rbrace = s'.startAt (n + 1 + m')
  parts : (l'.elements, l'.dangling) = splitElements s' n (n + 1 + m')

/-- What is recorded for a literal between the braces. -/
theorem isRenewed {o o' : Outline} (ho : h.alignment.pairs o.index o'.index)
    {e e' : CompositeLiteral × Nat × Nat × List Diagnostic} (hsame : Outline.SameLiteral h.alignment o o' e e')
    (hbrace : e.1.lbrace = s.startAt n) : IsRenewed s' n m' e.1 e'.1 := by
  have hlb : e.2.1 = n := by
    obtain ⟨-, -, b, hb, -⟩ := h.read.matched.closer_spec hsame.close
    refine h.read.eq_of_startAt_eq hb (by simp) h.brace (by simp) ?_
    rw [← hbrace, hsame.literal]
    rfl
  have hbefore := hsame.before
  have hlbrace := hsame.lbrace
  have hrbrace := hsame.rbrace
  have hclose := hsame.close
  have htype := hsame.type.2
  rw [hlb] at hlbrace hclose htype hbefore
  rw [h.closerOf_brace.1, Option.some.injEq] at hclose
  have hlb' : e'.2.1 = n := by
    rcases hlbrace with ⟨-, heq⟩ | ⟨hle, -⟩
    · exact heq.symm
    · omega
  have hrb' : e'.2.2.1 = n + 1 + m' := by
    rcases hrbrace with ⟨hle, -⟩ | ⟨-, heq⟩
    · omega
    · omega
  have hindex : o'.index = o.index := by
    rcases ho with ⟨-, heq⟩ | ⟨hle, -⟩
    · exact heq.symm
    · omega
  have hlit := hsame.literal
  have hlit' := hsame.literal'
  rw [hlb, ← hclose] at hlit
  rw [hlb', hrb', hindex] at hlit'
  refine ⟨?_, ?_, ?_, ?_, ?_⟩
  · rw [htype (Nat.le_refl n)]
    exact TypeExpr.move_id _
  · rw [hlit, hlit']
    show (⟨s'.startAt o.index, s'.stopBefore n⟩ : Span) = ⟨s.startAt o.index, s.stopBefore n⟩
    rw [h.startAt (Nat.le_of_lt hbefore), h.stopBefore (Nat.le_refl n)]
  · rw [hlit, hlit']
    exact h.startAt (Nat.le_refl n)
  · rw [hlit']
    rfl
  · rw [hlit']
    rfl

/-- A literal that begins before the braces has been recorded when the pass is behind them. -/
theorem mem_of_behind {o : Outline} (hbehind : n < o.index) {l : CompositeLiteral}
    (hl : l ∈ (Outline.finish s o).literals) (hstart : l.typeSpan.start < s.startAt n) : l ∈ o.literals := by
  obtain ⟨new, heq, hbegin⟩ := Outline.finish_literals h.read.matched o
  rw [heq, List.mem_append] at hl
  refine hl.resolve_right fun hnew => ?_
  obtain ⟨i, hi, his, hli⟩ := hbegin l hnew
  have hle := h.read.start_le_start (Nat.le_of_lt (Nat.lt_of_lt_of_le hbehind hi)) his
  omega

/-- A literal between the braces that the rest of a pass records is found in the other text, with its type
at the same place. -/
theorem finds {o o' : Outline} (ho : Outline.Tracks h.alignment o o') {l : CompositeLiteral}
    (hl : l ∈ (Outline.finish s o).literals) (hnew : l ∉ o.literals) (hbrace : l.lbrace = s.startAt n)
    (hstart : l.typeSpan.start < s.startAt n) :
    ∃ l' ∈ (Outline.finish s' o').literals, IsRenewed s' n m' l l' := by
  have hm := h.read.matched
  have hm' := h.read'.matched
  induction hk : s.size - o.index using Nat.strongRecOn generalizing o o' with
  | ind k ih =>
    cases ht : s.tokens[o.index]? with
    | none =>
      rw [Outline.finish_end (Array.getElem?_eq_none_iff.mp ht)] at hl
      exact absurd hl hnew
    | some t =>
      have htoken := h.alignment.token ho.index
      rw [ht] at htoken
      obtain ⟨t', ht', hsame⟩ := Option.map_eq_some_iff.mp htoken
      obtain ⟨hkind, htext⟩ := Prod.mk.inj hsame
      have hlt := Outline.step_lt hm t o
      have hsize : o.index < s.size := (Array.getElem?_eq_some_iff.mp ht).1
      obtain ⟨htracks, hrecorded⟩ := Outline.step_tracks hm ho hm' ht hkind
        (by rw [Token.isImplied, Token.isImplied, hkind, htext])
      rw [Outline.finish_step hm ht] at hl
      rw [Outline.finish_step hm' ht']
      by_cases hlater : l ∈ (Outline.step s t o).literals
      · rw [Outline.step_literals_eq, List.mem_append] at hlater
        have hnow := hlater.resolve_left hnew
        rcases hrecorded with ⟨hnone, -⟩ | ⟨e, e', he, he', hsame, -⟩
        · rw [hnone] at hnow
          cases hnow
        · rw [he, List.mem_singleton] at hnow
          subst hnow
          obtain ⟨new, hfinish, -⟩ := Outline.finish_literals hm' (Outline.step s' t' o')
          refine ⟨e'.1, ?_, h.isRenewed ho.index hsame hbrace⟩
          rw [hfinish, Outline.step_literals_eq, he']
          simp
      · rcases htracks with htracks | hlost
        · exact ih _ (by omega) htracks hl hlater rfl
        · exact absurd (h.mem_of_behind hlost hl hstart) hlater

end IsReplaced

end Lexed

/-! ## Braces replaced in a text -/

/-- The lexemes of a pair of braces. -/
def openBrace : Lexeme := ⟨.token (.opener .brace), ['\x7b']⟩

def closeBrace : Lexeme := ⟨.token (.closer .brace), ['\x7d']⟩

/-- The tokens of a text with a pair of braces: those before, between and behind them. -/
theorem tokensFrom_braces (A B C : List Lexeme) :
    tokensFrom 0 false (A ++ openBrace :: (B ++ closeBrace :: C)) =
      (tokensWithin 0 false A).1 ++ ⟨.opener .brace, byteLength (lexemesText A), ['\x7b']⟩ ::
        ((tokensWithin (byteLength (lexemesText A) + 1) false B).1 ++
          tokensFrom (byteLength (lexemesText A) + 1 + byteLength (lexemesText B)) false (closeBrace :: C)) := by
  have hopen : 0 + byteLength (lexemesText A) + byteLength openBrace.text = byteLength (lexemesText A) + 1 := by
    rw [Nat.zero_add]
    rfl
  rw [tokensFrom_append, tokensFrom_cons, hopen, tokensFrom_append, Nat.zero_add]
  rfl

theorem kinds_tokensWithin_lexemes (offset offset' : Nat) (pending : Bool) (ls : List Lexeme) :
    (tokensWithin offset pending ls).1.map (·.kind) = (tokensWithin offset' pending ls).1.map (·.kind) := by
  have hshift := tokensWithin_shift 0 offset pending ls
  have hshift' := tokensWithin_shift 0 offset' pending ls
  rw [Nat.zero_add] at hshift hshift'
  rw [hshift, hshift', List.map_map, List.map_map]
  rfl

/-- What the tokens of lexemes are does not depend on where they begin. -/
theorem tokensFrom_parts (offset offset' : Nat) (pending : Bool) (ls : List Lexeme) :
    (tokensFrom offset pending ls).map (fun t => (t.kind, t.text)) =
      (tokensFrom offset' pending ls).map fun t => (t.kind, t.text) := by
  have hshift := tokensFrom_shift 0 offset pending ls
  have hshift' := tokensFrom_shift 0 offset' pending ls
  rw [Nat.zero_add] at hshift hshift'
  rw [hshift, hshift', List.map_map, List.map_map]
  rfl

theorem length_tokensWithin_lexemes (offset offset' : Nat) (pending : Bool) (ls : List Lexeme) :
    (tokensWithin offset pending ls).1.length = (tokensWithin offset' pending ls).1.length := by
  simpa using congrArg List.length (kinds_tokensWithin_lexemes offset offset' pending ls)

section

variable {text : List Char} {A B C : List Lexeme} (h : lexemes text = A ++ openBrace :: (B ++ closeBrace :: C))
include h

theorem toList_tokens_braces : (Lexed.ofText text).1.tokens.toList =
    (tokensWithin 0 false A).1 ++ ⟨.opener .brace, byteLength (lexemesText A), ['{']⟩ ::
      ((tokensWithin (byteLength (lexemesText A) + 1) false B).1 ++
        tokensFrom (byteLength (lexemesText A) + 1 + byteLength (lexemesText B)) false (closeBrace :: C)) := by
  rw [(Lexed.isRead_ofText text).tokens_eq, ← tokensFrom_braces, ← h]
  rfl

/-- A token before the braces. -/
theorem token_before_braces {i : Nat} (hi : i < (tokensWithin 0 false A).1.length) :
    (Lexed.ofText text).1.tokens[i]? = (tokensWithin 0 false A).1[i]? := by
  rw [← Array.getElem?_toList, toList_tokens_braces h, List.getElem?_append_left hi]

/-- The last token before the braces. -/
theorem kindAt_of_getLast {t : Token} (ht : t ∈ (tokensWithin 0 false A).1.getLast?) :
    (Lexed.ofText text).1.kindAt ((tokensWithin 0 false A).1.length - 1) = some t.kind := by
  have hpos := List.length_pos_of_mem (List.mem_of_getLast? ht)
  rw [Lexed.kindAt, token_before_braces h (Nat.sub_lt hpos Nat.one_pos), ← List.getLast?_eq_getElem?, ht]
  rfl

/-- The opening brace. -/
theorem token_openBrace : (Lexed.ofText text).1.tokens[(tokensWithin 0 false A).1.length]? =
    some ⟨.opener .brace, byteLength (lexemesText A), ['{']⟩ := by
  rw [← Array.getElem?_toList, toList_tokens_braces h, List.getElem?_append_right (Nat.le_refl _), Nat.sub_self]
  rfl

/-- The tokens between the braces, by kind. -/
theorem kindsFrom_braces : ∃ rest, (Lexed.ofText text).1.kindsFrom ((tokensWithin 0 false A).1.length + 1) =
    (tokensWithin 0 false B).1.map (·.kind) ++ .closer .brace :: rest := by
  refine ⟨(tokensFrom (byteLength (lexemesText A) + 1 + byteLength (lexemesText B) + 1) true C).map (·.kind), ?_⟩
  rw [Lexed.kindsFrom, toList_tokens_braces h, ← List.drop_drop, List.drop_left, List.drop_one, List.tail_cons,
    List.map_append, kinds_tokensWithin_lexemes _ 0, tokensFrom_cons]
  rfl

/-- A token from the closing brace on. -/
theorem token_behind_braces (i : Nat) :
    (Lexed.ofText text).1.tokens[(tokensWithin 0 false A).1.length + 1 + (tokensWithin 0 false B).1.length + i]? =
      (tokensFrom (byteLength (lexemesText A) + 1 + byteLength (lexemesText B)) false (closeBrace :: C))[i]? := by
  have hsub : (tokensWithin 0 false A).1.length + 1 + (tokensWithin 0 false B).1.length + i =
      (tokensWithin 0 false A).1.length + ((tokensWithin (byteLength (lexemesText A) + 1) false B).1.length + i + 1) := by
    rw [length_tokensWithin_lexemes (byteLength (lexemesText A) + 1) 0]
    omega
  rw [← Array.getElem?_toList, toList_tokens_braces h, hsub, List.getElem?_append_right (Nat.le_add_right ..),
    Nat.add_sub_cancel_left, List.getElem?_cons_succ, List.getElem?_append_right (Nat.le_add_right ..),
    Nat.add_sub_cancel_left]

end

/-- Two texts with the same lexemes outside a pair of braces, and balanced ones between them. -/
theorem isReplaced_ofText {text text' : List Char} {A B B' C : List Lexeme}
    (h : lexemes text = A ++ openBrace :: (B ++ closeBrace :: C))
    (h' : lexemes text' = A ++ openBrace :: (B' ++ closeBrace :: C))
    (hb : IsBalanced ((tokensWithin 0 false B).1.map (·.kind)))
    (hb' : IsBalanced ((tokensWithin 0 false B').1.map (·.kind)))
    (hbody : ∀ t ∈ (tokensWithin 0 false A).1.getLast?, t.kind ≠ .keyword .structWord) :
    (Lexed.ofText text).1.IsReplaced (Lexed.ofText text').1 (tokensWithin 0 false A).1.length
      (tokensWithin 0 false B).1.length (tokensWithin 0 false B').1.length := by
  obtain ⟨rest, hinside⟩ := kindsFrom_braces h
  obtain ⟨rest', hinside'⟩ := kindsFrom_braces h'
  refine ⟨Lexed.isRead_ofText text, Lexed.isRead_ofText text', ?_, ?_, ?_, ⟨_, rest, hb, by simp, hinside⟩,
    ⟨_, rest', hb', by simp, hinside'⟩, ?_, ?_⟩
  · intro i hi
    rcases Nat.lt_or_eq_of_le hi with hlt | rfl
    · rw [token_before_braces h hlt, token_before_braces h' hlt]
    · rw [token_openBrace h, token_openBrace h']
  · intro i
    rw [token_behind_braces h, token_behind_braces h', ← List.getElem?_map, ← List.getElem?_map, tokensFrom_parts]
  · rw [Lexed.kindAt, token_openBrace h]
    rfl
  · refine ⟨lexemesText A, lexemesText (openBrace :: (B ++ closeBrace :: C)),
      lexemesText (openBrace :: (B' ++ closeBrace :: C)), ?_, ?_, ?_⟩
    · rw [← lexemesText_append, ← h]
      exact (lexemesText_lexemes text).symm
    · rw [← lexemesText_append, ← h']
      exact (lexemesText_lexemes text').symm
    · rw [Lexed.startAt, token_openBrace h]
      rfl
  · intro hk
    cases hlast : (tokensWithin 0 false A).1.getLast? with
    | none =>
      have hempty := congrArg List.length (List.getLast?_eq_none_iff.mp hlast)
      rw [hempty, List.length_nil, Nat.zero_sub, ← List.length_nil, ← hempty, Lexed.kindAt, token_openBrace h] at hk
      cases hk
    | some t => exact hbody t hlast (Option.some.inj ((kindAt_of_getLast h hlast).symm.trans hk))

end LiteralFill
