import LiteralFill.Proofs.Elements
import LiteralFill.Proofs.Outline

/-!
A text behind a longer beginning. From some token on the two texts hold the same tokens, a fixed number of
bytes further on in the second; the pass records the same literals there, that many bytes further on.
-/

namespace LiteralFill

/-! ## Literals at other positions -/

namespace Span

/-- A span further on. -/
def shift (d : Nat) (p : Span) : Span := ⟨p.start + d, p.stop + d⟩

end Span

/-- An element further on. -/
def Element.shift (d : Nat) (e : Element) : Element :=
  { e with
    key := e.key.map fun k => { k with span := k.span.shift d }
    value := e.value.shift d
    span := e.span.shift d }

/-- A literal further on. -/
def CompositeLiteral.shift (d : Nat) (l : CompositeLiteral) : CompositeLiteral :=
  { l with
    type := l.type.move (· + d)
    typeSpan := l.typeSpan.shift d
    lbrace := l.lbrace + d
    rbrace := l.rbrace + d
    elements := l.elements.map (.shift d) }

/-! ## The same tokens further on -/

namespace Lexed

/-- From index `n` and position `base` on, the second text repeats the first, `m` tokens and `d` bytes
further on. It begins with a brace there. -/
structure IsShifted (s s' : Lexed) (n m base d : Nat) : Prop where
  matched : s.IsMatched
  matched' : s'.IsMatched
  brace : s.kindAt n = some (.opener .brace)
  token (i : Nat) : n ≤ i → s'.tokens[i + m]? = s.tokens[i]?.map (.shift d)
  text (p q : Nat) : base ≤ p → slice s'.text ⟨p + d, q + d⟩ = slice s.text ⟨p, q⟩
  length : byteLength s'.text = byteLength s.text + d
  base_le (i : Nat) : n ≤ i → base ≤ s.startAt i

namespace IsShifted

variable {s s' : Lexed} {n m base d : Nat} (h : IsShifted s s' n m base d) {i : Nat}
include h

theorem kindAt (hi : n ≤ i) : s'.kindAt (i + m) = s.kindAt i := by
  rw [Lexed.kindAt, Lexed.kindAt, h.token i hi, Option.map_map]
  rfl

theorem startAt (hi : n ≤ i) : s'.startAt (i + m) = s.startAt i + d := by
  rw [Lexed.startAt, Lexed.startAt, h.token i hi, h.length]
  cases s.tokens[i]? <;> rfl

theorem stopAt (hi : n ≤ i) (hs : i < s.size) : s'.stopAt (i + m) = s.stopAt i + d := by
  rw [Lexed.stopAt, Lexed.stopAt, h.token i hi, Array.getElem?_eq_getElem hs]
  simp

theorem lt_size : n < s.size := kindAt_lt h.brace

theorem size : s'.size = s.size + m := by
  have hlt := h.lt_size
  have hnone : s'.tokens[s.size + m]? = none := by
    rw [h.token s.size (by omega)]
    exact congrArg _ (Array.getElem?_eq_none (Nat.le_refl _))
  have hle : s'.size ≤ s.size + m := Array.getElem?_eq_none_iff.mp hnone
  obtain ⟨t, ht⟩ := exists_token (show s.size - 1 < s.size by omega)
  have hlast := h.token (s.size - 1) (by omega)
  rw [ht] at hlast
  obtain ⟨hlt', -⟩ := Array.getElem?_eq_some_iff.mp hlast
  have : s.size - 1 + m < s'.size := hlt'
  omega

theorem kindsFrom (hi : n ≤ i) : s'.kindsFrom (i + m) = s.kindsFrom i := by
  apply List.ext_getElem?
  intro k
  rw [kindsFrom_getElem?, kindsFrom_getElem?, Nat.add_right_comm, h.kindAt (by omega)]

theorem closerOf (hi : n ≤ i) : s'.closerOf (i + m) = (s.closerOf i).map (· + m) := by
  rw [h.matched', h.matched, h.kindAt hi]
  cases s.kindAt i with
  | none => rfl
  | some k =>
    cases k with
    | opener b =>
      simp only
      rw [Nat.add_right_comm, h.kindsFrom (by omega), Option.map_map]
      congr 1
      funext k
      simp only [Function.comp]
      omega
    | _ => rfl

theorem stopBefore (hi : n < i) (hs : i ≤ s.size) : s'.stopBefore (i + m) = s.stopBefore i + d := by
  obtain ⟨j, rfl⟩ : ∃ j, i = j + 1 := ⟨i - 1, by omega⟩
  rw [Nat.add_right_comm]
  exact h.stopAt (by omega) (by omega)

/-- The correspondence of the tokens of the two texts. -/
def alignment : Alignment s s' where
  pairs i i' := n ≤ i ∧ i' = i + m
  exact i := i ≤ s.size
  lost _ := False
  move := (· + d)
  token := by
    rintro i _ ⟨hi, rfl⟩
    rw [h.token i hi, Option.map_map]
    rfl
  next := by
    rintro i _ ⟨hi, rfl⟩ -
    exact ⟨by omega, by omega⟩
  enter := by
    rintro i _ ⟨hi, rfl⟩
    exact .inl ⟨by omega, by omega⟩
  body := by
    rintro i _ ⟨hi, rfl⟩ - -
    exact ⟨by omega, by omega⟩
  close := by
    rintro i _ ⟨hi, rfl⟩
    rw [h.closerOf hi]
    cases hc : s.closerOf i with
    | none => exact .inl ⟨rfl, rfl⟩
    | some c =>
      have := (h.matched.closer_spec hc).1
      exact .inr ⟨c, c + m, rfl, rfl, by omega, rfl⟩
  order := by
    rintro i _ j _ ⟨-, rfl⟩ ⟨-, rfl⟩
    omega
  size := ⟨Nat.le_of_lt h.lt_size, h.size⟩
  before := by
    rintro i _ ⟨hi, rfl⟩ hk
    have hne : i ≠ n := by
      rintro rfl
      rw [h.brace] at hk
      cases hk
    obtain ⟨j, rfl⟩ : ∃ j, i = j + 1 := ⟨i - 1, by omega⟩
    refine ⟨by omega, ?_⟩
    rw [Nat.add_right_comm, Nat.add_sub_cancel, Nat.add_sub_cancel, h.kindAt (by omega)]
  exact_of_le hj hij := Nat.le_trans hij hj
  exact_sub := by
    rintro i _ j _ ⟨-, rfl⟩ ⟨-, rfl⟩ -
    omega
  slice := by
    rintro i _ j _ ⟨hi, rfl⟩ ⟨-, rfl⟩ hij hj
    rw [h.startAt hi, h.stopBefore (by omega) hj]
    exact h.text _ _ (h.base_le i hi)
  start := by
    rintro i _ j _ ⟨hi, rfl⟩ - - -
    exact h.startAt hi
  stop := by
    rintro i _ j _ ⟨hi, rfl⟩ ⟨-, rfl⟩ hij hj
    exact h.stopBefore (by omega) hj
  lost_of_le hl _ := hl
  not_lost _ hl := hl

theorem commentTexts {p q : Nat} (hp : base ≤ p) :
    LiteralFill.commentTexts s'.text ⟨p + d, q + d⟩ = LiteralFill.commentTexts s.text ⟨p, q⟩ := by
  unfold LiteralFill.commentTexts
  rw [h.text p q hp]

theorem base_le_stop (hi : n ≤ i) (hs : i < s.size) : base ≤ s.stopAt i :=
  Nat.le_trans (h.base_le i hi) (start_le_stop hs)

theorem textBetween {first last : Nat} (hf : n ≤ first) (hl : n ≤ last) (hs : last < s.size) :
    s'.textBetween (first + m) (last + m) = s.textBetween first last := by
  unfold Lexed.textBetween sliceText
  rw [h.startAt hf, h.stopAt hl hs, h.text _ _ (h.base_le first hf)]

/-! ## Elements further on -/

theorem elementTokens (rbrace fuel : Nat) (hi : n ≤ i) (extent : Option (Nat × Nat)) :
    elementTokens s' (rbrace + m) fuel (i + m) (extent.map fun e => (e.1 + m, e.2 + m)) =
      ((elementTokens s rbrace fuel i extent).1.map (fun e => (e.1 + m, e.2 + m)),
        (elementTokens s rbrace fuel i extent).2 + m) := by
  induction fuel generalizing i extent with
  | zero => rfl
  | succ fuel ih =>
    unfold LiteralFill.elementTokens
    by_cases hlt : i < rbrace
    · rw [if_pos hlt, if_pos (by omega), h.kindAt hi]
      have hfirst : (((extent.map fun e => (e.1 + m, e.2 + m)).map (·.1)).getD (i + m)) =
          (extent.map (·.1)).getD i + m := by cases extent <;> rfl
      have hone := fun e => ih (i := i + 1) (by omega) (some ((extent.map (·.1)).getD i, e))
      split
      · rfl
      · have := ih (i := i + 1) (by omega) extent
        rw [← Nat.add_right_comm]
        exact this
      · rw [h.closerOf hi, hfirst]
        cases hc : s.closerOf i with
        | none =>
          have := hone i
          rw [← Nat.add_right_comm]
          exact this
        | some close =>
          have hcl := (h.matched.closer_spec hc).1
          simp only [Option.map_some]
          by_cases hle : close ≤ rbrace
          · rw [if_pos hle, if_pos (by omega)]
            have := ih (i := close + 1) (by omega) (some ((extent.map (·.1)).getD i, close))
            rw [← Nat.add_right_comm]
            exact this
          · rw [if_neg hle, if_neg (by omega)]
            have := hone i
            rw [← Nat.add_right_comm]
            exact this
    · rw [if_neg hlt, if_neg (by omega)]

theorem keyColon {first last fuel : Nat} (hi : n ≤ i) :
    keyColon s' (first + m) (last + m) fuel (i + m) = (keyColon s first last fuel i).map (· + m) := by
  induction fuel generalizing i with
  | zero => rfl
  | succ fuel ih =>
    unfold LiteralFill.keyColon
    by_cases hle : i ≤ last
    · rw [if_pos hle, if_pos (by omega), h.kindAt hi]
      have hnext := ih (i := i + 1) (by omega)
      rw [Nat.add_right_comm] at hnext
      split
      · by_cases hlt : first < i
        · rw [if_pos hlt, if_pos (by omega)]
          rfl
        · rw [if_neg hlt, if_neg (by omega)]
          exact hnext
      · have hgroup : s'.skipGroup (i + m) (last + m + 1) = s.skipGroup i (last + 1) + m := by
          unfold Lexed.skipGroup
          rw [h.closerOf hi]
          cases s.closerOf i with
          | none => simp only [Option.map_none]; omega
          | some c => simp only [Option.map_some]; omega
        rw [hgroup]
        refine ih ?_
        have := h.matched.lt_skipGroup (show i < last + 1 by omega)
        omega
      · exact hnext
    · rw [if_neg hle, if_neg (by omega)]
      rfl

theorem elementKey {first last : Nat} (hf : n ≤ first) (hl : last < s.size) :
    elementKey s' (first + m) (last + m) =
      ((elementKey s first last).1.map (fun k => { k with span := k.span.shift d }),
        (elementKey s first last).2.map (· + m)) := by
  unfold LiteralFill.elementKey
  rw [show last + m + 1 - (first + m) = last + 1 - first by omega, h.keyColon hf]
  cases hc : LiteralFill.keyColon s first last (last + 1 - first) first with
  | none => rfl
  | some colon =>
    obtain ⟨-, hle, hlt, -⟩ := keyColon_spec h.matched hc
    have hsub : colon + m - 1 = colon - 1 + m := by omega
    simp only [Option.map_some]
    rw [hsub, h.textBetween hf (by omega) (by omega), h.startAt hf,
      h.stopAt (show n ≤ colon - 1 by omega) (by omega), h.kindAt hf]
    have heq : (colon + m == first + m + 1) = (colon == first + 1) := by
      rw [Bool.eq_iff_iff, beq_iff_eq, beq_iff_eq]
      omega
    have hval : (if colon + m < last + m then some (colon + m + 1) else none) =
        (if colon < last then some (colon + 1) else none).map (· + m) := by
      by_cases hv : colon < last
      · rw [if_pos hv, if_pos (by omega)]
        simp only [Option.map_some, Option.some.injEq]
        omega
      · rw [if_neg hv, if_neg (by omega)]
        rfl
    rw [heq, hval]
    rfl

theorem valueSpan (key : Option Key) (valueFirst : Option Nat) {last : Nat}
    (hv : ∀ v ∈ valueFirst, n ≤ v ∧ (key.isSome → n < v ∧ v ≤ s.size)) (hn : n ≤ last)
    (hl : last < s.size) :
    valueSpan s' (key.map fun k => { k with span := k.span.shift d }) (valueFirst.map (· + m))
        (last + m) = (valueSpan s key valueFirst last).shift d := by
  unfold LiteralFill.valueSpan
  rw [h.stopAt hn hl]
  cases valueFirst with
  | none => rfl
  | some v =>
    obtain ⟨h1, h2⟩ := hv v rfl
    cases key with
    | none =>
      simp only [Option.map_some, Option.map_none, h.startAt h1]
      rfl
    | some k =>
      obtain ⟨h3, h4⟩ := h2 rfl
      simp only [Option.map_some, h.startAt h1]
      rw [show v + m - 1 = v - 1 + m by omega, h.stopAt (show n ≤ v - 1 by omega) (by omega)]
      rw [h.text _ _ (h.base_le_stop (show n ≤ v - 1 by omega) (by omega))]
      simp only [Span.shift, Span.mk.injEq, and_true]
      omega

theorem lineEnd {p q : Nat} (hp : base ≤ p) :
    lineEnd s'.text ⟨p + d, q + d⟩ = lineEnd s.text ⟨p, q⟩ + d := by
  unfold LiteralFill.lineEnd
  rw [h.text p q hp]
  simp only
  omega

theorem readElement {rbrace gapStart first last : Nat} {comma : Option Nat} (hg : base ≤ gapStart)
    (hf : n ≤ first) (hfl : first ≤ last) (hl : last < s.size) (hr : n ≤ rbrace)
    (hc : ∀ c ∈ comma, n ≤ c ∧ c < s.size) :
    readElement s' (rbrace + m) (gapStart + d) (first + m) (last + m) (comma.map (· + m)) =
      ((readElement s rbrace gapStart first last comma).1.shift d,
        (readElement s rbrace gapStart first last comma).2 + d) ∧
      base ≤ (readElement s rbrace gapStart first last comma).2 := by
  have hstop := h.stopAt (show n ≤ last by omega) hl
  have hafter : ((comma.map (· + m)).map s'.stopAt).getD (s.stopAt last + d) =
      (comma.map s.stopAt).getD (s.stopAt last) + d := by
    cases comma with
    | none => rfl
    | some c => exact h.stopAt (hc c rfl).1 (hc c rfl).2
  have hnext : s'.startAt (((comma.map (· + m)).map (· + 1)).getD (rbrace + m)) =
      s.startAt ((comma.map (· + 1)).getD rbrace) + d := by
    cases comma with
    | none => exact h.startAt hr
    | some c =>
      have := h.startAt (i := c + 1) (Nat.le_succ_of_le (hc c rfl).1)
      rw [Nat.add_right_comm] at this
      exact this
  have hbase : base ≤ (comma.map s.stopAt).getD (s.stopAt last) := by
    cases comma with
    | none => exact h.base_le_stop (by omega) hl
    | some c => exact h.base_le_stop (hc c rfl).1 (hc c rfl).2
  have hstart := h.base_le first hf
  have hbstop := h.base_le_stop (show n ≤ last by omega) hl
  have hfirst : ∀ v ∈ (LiteralFill.elementKey s first last).2,
      n ≤ v ∧ ((LiteralFill.elementKey s first last).1.isSome → n < v ∧ v ≤ s.size) := by
    unfold LiteralFill.elementKey
    cases hk : LiteralFill.keyColon s first last (last + 1 - first) first with
    | none =>
      rintro v ⟨⟩
      exact ⟨hf, by simp⟩
    | some colon =>
      obtain ⟨-, hle, hlt, -⟩ := keyColon_spec h.matched hk
      simp only
      split
      · rintro v ⟨⟩
        exact ⟨by omega, fun _ => ⟨by omega, by omega⟩⟩
      · rintro v ⟨⟩
  have hvalue := h.valueSpan _ _ hfirst (show n ≤ last by omega) hl
  unfold LiteralFill.readElement
  simp only [h.elementKey hf hl, h.startAt hf, hstop, hafter, hnext, hvalue, Nat.add_max_add_right,
    Nat.add_min_add_right, h.lineEnd hbase, h.commentTexts (show base ≤ min gapStart (s.startAt first)
      by omega), h.commentTexts hbstop]
  refine ⟨?_, ?_⟩
  · refine Prod.ext rfl ?_
    simp only
    split
    · rfl
    · rfl
  · split
    · exact hbase
    · exact Nat.le_trans hbase (Nat.le_add_right _ _)

theorem readElements (fuel : Nat) {lbrace rbrace gapStart : Nat} (hc : s.closerOf lbrace = some rbrace)
    (hn : n ≤ lbrace) (hg : base ≤ gapStart) (hi : lbrace < i) (hir : i ≤ rbrace)
    (hclear : s.IsClear lbrace i) :
    readElements s' (rbrace + m) fuel (i + m) (gapStart + d) =
        ((readElements s rbrace fuel i gapStart).1.map (.shift d),
          (readElements s rbrace fuel i gapStart).2 + d) ∧
      base ≤ (readElements s rbrace fuel i gapStart).2 := by
  induction fuel generalizing i gapStart with
  | zero => exact ⟨rfl, hg⟩
  | succ fuel ih =>
    have hr := (h.matched.closer_spec hc).2.1
    have htokens := h.elementTokens rbrace (rbrace - i) (show n ≤ i by omega) none
    rcases hel : LiteralFill.elementTokens s rbrace (rbrace - i) i none with ⟨extent, stop⟩
    have hstart : IsExtent s lbrace i i none := fun j h1 h2 => by omega
    obtain ⟨hstop, hstopr, hcomma, hclear', hextent⟩ := elementTokens_spec h.matched hc (by omega)
      hir hi (Nat.le_refl _) hclear hstart hel
    rw [hel, Option.map_none] at htokens
    have hread : ∀ {first last : Nat} (comma : Option Nat), extent = some (first, last) →
        (∀ c ∈ comma, n ≤ c ∧ c < s.size) →
        LiteralFill.readElement s' (rbrace + m) (gapStart + d) (first + m) (last + m)
            (comma.map (· + m)) =
          ((LiteralFill.readElement s rbrace gapStart first last comma).1.shift d,
            (LiteralFill.readElement s rbrace gapStart first last comma).2 + d) ∧
        base ≤ (LiteralFill.readElement s rbrace gapStart first last comma).2 := by
      rintro first last comma rfl hcom
      have h1 := hextent.le_first
      have h2 := hextent.first_le_last
      have h3 := hextent.last_lt
      exact h.readElement hg (by omega) h2 (by omega) (by omega) hcom
    have hsub : rbrace + m - (i + m) = rbrace - i := by omega
    unfold LiteralFill.readElements
    rw [hsub, htokens, hel]
    by_cases hlt : stop < rbrace
    · have hlt' : stop + m < rbrace + m := by omega
      have hnext := hclear'.succ (show s.closerOf stop = none by rw [h.matched, hcomma hlt])
      have hcom : ∀ c ∈ some stop, n ≤ c ∧ c < s.size := by
        rintro c ⟨⟩
        omega
      cases extent with
      | none =>
        obtain ⟨h1, h2⟩ := ih hg (show lbrace < stop + 1 by omega) hlt hnext
        rw [Nat.add_right_comm] at h1
        simp only [Option.map_none, hlt, hlt', ↓reduceIte, h1, List.nil_append]
        exact ⟨trivial, h2⟩
      | some e =>
        obtain ⟨first, last⟩ := e
        obtain ⟨h1, h2⟩ := hread _ rfl hcom
        obtain ⟨h3, h4⟩ := ih h2 (show lbrace < stop + 1 by omega) hlt hnext
        rw [Nat.add_right_comm] at h3
        rw [Option.map_some] at h1
        simp only [Option.map_some, hlt, hlt', ↓reduceIte, h1, h3, List.map_append, List.map_cons,
          List.map_nil]
        exact ⟨trivial, h4⟩
    · have hlt' : ¬ stop + m < rbrace + m := by omega
      cases extent with
      | none =>
        simp only [Option.map_none, hlt, hlt', ↓reduceIte, List.map_nil]
        exact ⟨trivial, hg⟩
      | some e =>
        obtain ⟨first, last⟩ := e
        obtain ⟨h1, h2⟩ := hread none rfl (by rintro c ⟨⟩)
        rw [Option.map_none] at h1
        simp only [Option.map_some, hlt, hlt', ↓reduceIte, h1, List.map_cons, List.map_nil]
        exact ⟨trivial, h2⟩

theorem splitElements {lbrace rbrace : Nat} (hc : s.closerOf lbrace = some rbrace) (hn : n ≤ lbrace) :
    splitElements s' (lbrace + m) (rbrace + m) =
      ((splitElements s lbrace rbrace).1.map (.shift d), (splitElements s lbrace rbrace).2) := by
  have hlr := h.matched.closer_spec hc
  have hstop := h.stopAt hn (by omega)
  obtain ⟨h1, h2⟩ := h.readElements (rbrace - lbrace) hc hn
    (h.base_le_stop hn (by omega)) (Nat.lt_succ_self _) (by omega) (isClear_start s lbrace)
  unfold LiteralFill.splitElements
  rw [show rbrace + m - (lbrace + m) = rbrace - lbrace by omega, Nat.add_right_comm lbrace m 1, hstop,
    h1, h.startAt (show n ≤ rbrace by omega)]
  simp only [Nat.add_min_add_right]
  have hbase := h.base_le rbrace (by omega)
  rw [h.commentTexts (by omega)]

/-! ## The rest of the pass -/

theorem literalAt {type type' : TypeExpr} (htype : type' = type.move (· + d)) {first lbrace rbrace : Nat}
    (hf : n ≤ first) (hfl : first < lbrace) (hc : s.closerOf lbrace = some rbrace) :
    Outline.literalAt s' type' (first + m) (lbrace + m) (rbrace + m) =
      (Outline.literalAt s type first lbrace rbrace).shift d := by
  have hspec := h.matched.closer_spec hc
  unfold Outline.literalAt
  rw [h.startAt hf, h.stopBefore (show n < lbrace by omega) (by omega),
    h.startAt (show n ≤ lbrace by omega), h.startAt (show n ≤ rbrace by omega),
    h.splitElements hc (by omega), htype]
  rfl

/-- From corresponding places on the pass records the same literals. -/
theorem finish_literals {o o' : Outline} (ho : Outline.Tracks h.alignment o o') :
    ∃ new, (Outline.finish s o).literals = o.literals ++ new ∧
      (Outline.finish s' o').literals = o'.literals ++ new.map (.shift d) := by
  induction hk : s.size - o.index using Nat.strongRecOn generalizing o o' with
  | ind k ih =>
    have hindex := ho.index
    obtain ⟨hn, hindex'⟩ := hindex
    have htoken := h.token o.index hn
    rw [← hindex'] at htoken
    cases ht : s.tokens[o.index]? with
    | none =>
      rw [ht, Option.map_none] at htoken
      have hle : s.size ≤ o.index := Array.getElem?_eq_none_iff.mp ht
      have hle' : s'.size ≤ o'.index := Array.getElem?_eq_none_iff.mp htoken
      exact ⟨[], by rw [Outline.finish_end hle, List.append_nil],
        by rw [Outline.finish_end hle', List.map_nil, List.append_nil]⟩
    | some t =>
      rw [ht, Option.map_some] at htoken
      have hlt := Outline.step_lt h.matched t o
      have hsize : o.index < s.size := (Array.getElem?_eq_some_iff.mp ht).1
      obtain ⟨htracks, hrecorded⟩ := Outline.step_tracks h.matched ho h.matched' ht
        (show (t.shift d).kind = t.kind from rfl) (show (t.shift d).isImplied = t.isImplied from rfl)
      obtain ⟨new, hnew, hnew'⟩ := ih _ (by omega) (htracks.resolve_right id) rfl
      have hsame : Outline.recorded s' (t.shift d) o' = (Outline.recorded s t o).map (.shift d) := by
        rcases hrecorded with ⟨hr, hr'⟩ | ⟨e, e', hr, hr', hlit, -⟩
        · rw [hr, hr', List.map_nil]
        · obtain ⟨-, hl'⟩ := hlit.lbrace
          obtain ⟨-, hrb'⟩ := hlit.rbrace
          have hc := hlit.close
          have hlsize : e.2.1 ≤ s.size := by
            have := h.matched.closer_spec hc
            omega
          rw [hr, hr', List.map_singleton, hlit.literal', hindex', hl', hrb',
            h.literalAt (hlit.type.2 hlsize) hn hlit.before hc, ← hlit.literal]
      refine ⟨Outline.recorded s t o ++ new, ?_, ?_⟩
      · rw [Outline.finish_step h.matched ht, hnew, Outline.step_literals_eq, List.append_assoc]
      · rw [Outline.finish_step h.matched' htoken, hnew', Outline.step_literals_eq, hsame,
          List.map_append, List.append_assoc]

end IsShifted

end Lexed

end LiteralFill
