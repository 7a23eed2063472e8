import LiteralFill.Syntax.Lexeme

/-!
Where tokens end. A separator lengthens no token, so a token that ends within a text ends there whatever
follows the text, as long as that begins with a separator. Each measure of the scan gets a lemma that
says so, and one that keeps it within the text.
-/

namespace LiteralFill

/-! ## Separators -/

/-- The characters that end whatever token stands before them and lengthen none. -/
def separators : List Char :=
  [' ', '\t', '\r', '\x0c', '\n', ',', ';', ':', '(', ')', '[', ']', '\x7b', '\x7d']

/-- A text that is empty or begins with a separator. -/
def Separated (r : List Char) : Prop := ∀ d ∈ r.head?, d ∈ separators

theorem runLength_nil (p : Char → Bool) : runLength p [] = 0 := rfl

theorem runLength_cons (p : Char → Bool) (c : Char) (cs : List Char) :
    runLength p (c :: cs) = if p c then runLength p cs + 1 else 0 := by
  by_cases h : p c <;> simp [runLength, h]

theorem runLength_le (p : Char → Bool) (cs : List Char) : runLength p cs ≤ cs.length := by
  induction cs with
  | nil => simp [runLength]
  | cons c cs ih => rw [runLength_cons]; split <;> simp <;> omega

/-- A run that ends within a text ends there whatever follows, if what follows does not
lengthen it. -/
theorem runLength_append {p : Char → Bool} {q r r' : List Char}
    (h : runLength p (q ++ r) ≤ q.length) (hr : ∀ d ∈ r'.head?, p d = false) :
    runLength p (q ++ r') = runLength p (q ++ r) := by
  induction q with
  | nil =>
    have hz : runLength p r = 0 := by simpa using h
    cases r' with
    | nil => simpa [runLength_nil] using hz.symm
    | cons d s =>
      have hd : p d = false := hr d rfl
      simp [runLength_cons, hd, hz]
  | cons c q ih =>
    simp only [List.cons_append, runLength_cons, List.length_cons] at h ⊢
    by_cases hc : p c
    · simp only [hc, ↓reduceIte] at h ⊢
      rw [ih (by omega)]
    · simp [hc]

theorem separator_facts {d : Char} (h : d ∈ separators) :
    continuesIdent d = false ∧ (d.isAlphanum || d == '_') = false ∧ d ≠ '.' ∧ isNumberDigit d = false ∧
      d ≠ 'i' ∧ d ≠ '+' ∧ d ≠ '-' ∧ d ≠ '/' ∧ d ≠ '*' ∧ isExponentLetter d = false := by
  simp only [separators, List.mem_cons, List.not_mem_nil, or_false] at h
  rcases h with rfl | rfl | rfl | rfl | rfl | rfl | rfl | rfl | rfl | rfl | rfl | rfl | rfl | rfl <;> decide

theorem firstByte_ascii {n : Nat} (h : n < 0x80) : firstByte n = n := by simp [firstByte, h]

theorem beginsLikeIdent_ascii {d : Char} (h : d.toNat < 0x80) : beginsLikeIdent d = false := by
  have hr : ∀ r ∈ letterRanges ++ digitRanges, 0x80 ≤ firstByte r.1 := by decide +kernel
  simp only [beginsLikeIdent, List.any_eq_false, Bool.and_eq_true, decide_eq_true_eq, not_and]
  intro r hm hle
  have := hr r hm
  rw [firstByte_ascii h] at hle
  omega

/-! ## Numbers -/

/-- A character of the whole part of a number, or of its fraction. -/
def isNumberWord (c : Char) : Bool := c.isAlphanum || c == '_'

/-- The length of a point at the start of a text and of the fraction behind it. -/
def pointLength : List Char → Nat
  | '.' :: fraction => 1 + runLength isNumberWord fraction
  | _ => 0

theorem plainNumberLength_eq (cs : List Char) :
    plainNumberLength cs =
      runLength isNumberWord cs + pointLength (cs.drop (runLength isNumberWord cs)) := by
  show (match cs.drop (runLength isNumberWord cs) with
    | '.' :: fraction => runLength isNumberWord cs + 1 + runLength isNumberWord fraction
    | _ => runLength isNumberWord cs) = _
  cases cs.drop (runLength isNumberWord cs) with
  | nil => rfl
  | cons c s =>
    by_cases hc : c = '.'
    · subst hc; exact Nat.add_assoc _ _ _
    · simp [pointLength, hc]

theorem isNumberWord_separated {r : List Char} (hr : Separated r) :
    ∀ d ∈ r.head?, isNumberWord d = false :=
  fun d hd => (separator_facts (hr d hd)).2.1

theorem pointLength_separated {r : List Char} (hr : Separated r) : pointLength r = 0 := by
  cases r with
  | nil => rfl
  | cons d s => simp [pointLength, (separator_facts (hr d rfl)).2.2.1]

theorem pointLength_append {q r r' : List Char} (h : pointLength (q ++ r) ≤ q.length)
    (hr : Separated r') : pointLength (q ++ r') = pointLength (q ++ r) := by
  cases q with
  | nil =>
    have hz : pointLength r = 0 := by simpa using h
    simp [hz, pointLength_separated hr]
  | cons c q =>
    by_cases hc : c = '.'
    · subst hc
      simp only [List.cons_append, pointLength, List.length_cons] at h ⊢
      rw [runLength_append (r := r) (by omega) (isNumberWord_separated hr)]
    · simp [pointLength, hc]

theorem plainNumberLength_append {p r r' : List Char} (h : plainNumberLength (p ++ r) ≤ p.length)
    (hr : Separated r') : plainNumberLength (p ++ r') = plainNumberLength (p ++ r) := by
  simp only [plainNumberLength_eq] at h ⊢
  have hrun := runLength_append (q := p) (r := r) (by omega) (isNumberWord_separated hr)
  rw [hrun]
  generalize runLength isNumberWord (p ++ r) = n at h hrun ⊢
  rw [List.drop_append_of_le_length (by omega)] at h ⊢
  rw [List.drop_append_of_le_length (by omega)]
  rw [pointLength_append (r := r) (by simp; omega) hr]

theorem next_separator {d : Char} (h : d ∈ separators) (p : ExponentPlace) : p.next d = none := by
  obtain ⟨-, -, -, hn, hi, -, -, -, -, he⟩ := separator_facts h
  simp [ExponentPlace.next, hn, hi, he]

theorem lengthToSign_separated {p : ExponentPlace} {r : List Char} (hr : Separated r) :
    lengthToSign p r = none := by
  cases r with
  | nil => rfl
  | cons d s =>
    have hd := hr d rfl
    obtain ⟨-, -, -, -, -, h1, h2, -⟩ := separator_facts hd
    simp [lengthToSign, next_separator hd, h1, h2]

/-- The sign of an exponent is found within a text or not before its end. -/
theorem lengthToSign_append (p : ExponentPlace) (q r r' : List Char) (hr : Separated r') :
    (∃ m, lengthToSign p (q ++ r) = some m ∧ m < q.length ∧ lengthToSign p (q ++ r') = some m) ∨
    (lengthToSign p (q ++ r') = none ∧ ∀ m, lengthToSign p (q ++ r) = some m → q.length ≤ m) := by
  induction q generalizing p with
  | nil => exact .inr ⟨lengthToSign_separated hr, fun m _ => Nat.zero_le m⟩
  | cons c q ih =>
    simp only [List.cons_append, lengthToSign]
    cases hc : p.next c with
    | none =>
      by_cases hs : p = .letter ∧ (c = '+' ∨ c = '-')
      · left; exact ⟨0, by simp [hs], by simp, by simp [hs]⟩
      · right; constructor
        · simp [hs]
        · intro m hm; simp [hs] at hm
    | some p' =>
      rcases ih p' with ⟨m, h1, h2, h3⟩ | ⟨h1, h2⟩
      · left; exact ⟨m + 1, by simp [h1], by simp; omega, by simp [h3]⟩
      · right
        refine ⟨by simp [h1], ?_⟩
        intro m hm
        simp only [Option.map_eq_some_iff] at hm
        obtain ⟨m', hm', rfl⟩ := hm
        have := h2 m' hm'
        simp; omega

/-- The length of the digits of an exponent after its sign, with an `i` behind them; zero without digits. -/
def exponentDigits (cs : List Char) : Nat :=
  let digits := runLength isNumberDigit cs
  let imaginary := if cs[digits]? = some 'i' then 1 else 0
  if digits = 0 then 0 else digits + imaginary

theorem isNumberDigit_separated {r : List Char} (hr : Separated r) :
    ∀ d ∈ r.head?, isNumberDigit d = false :=
  fun d hd => (separator_facts (hr d hd)).2.2.2.1

/-- An `i` right behind a run of digits. -/
theorem getElem?_append_separated {q r r' : List Char} {n : Nat} (hn : n ≤ q.length)
    (h : (q ++ r)[n]? = some 'i' → n < q.length) (hr : Separated r') :
    (q ++ r')[n]? = some 'i' ↔ (q ++ r)[n]? = some 'i' := by
  by_cases hlt : n < q.length
  · simp [List.getElem?_append_left hlt]
  · have he : n = q.length := by omega
    constructor
    · intro hi
      have : r'.head? = some 'i' := by
        simpa [he, List.getElem?_append_right, List.head?_eq_getElem?] using hi
      exact absurd rfl (separator_facts (hr 'i' this)).2.2.2.2.1
    · intro hi
      exact absurd (h hi) hlt

theorem exponentDigits_append {q r r' : List Char} (h : exponentDigits (q ++ r) ≤ q.length)
    (hr : Separated r') : exponentDigits (q ++ r') = exponentDigits (q ++ r) := by
  have hle : runLength isNumberDigit (q ++ r) ≤ q.length := by
    simp only [exponentDigits] at h
    split at h <;> omega
  have hrun := runLength_append hle (isNumberDigit_separated hr)
  simp only [exponentDigits, hrun] at h ⊢
  generalize runLength isNumberDigit (q ++ r) = n at h hle ⊢
  by_cases hz : n = 0
  · simp [hz]
  · simp only [hz, ↓reduceIte] at h ⊢
    have hi : (q ++ r)[n]? = some 'i' → n < q.length := by
      intro hi
      rw [if_pos hi] at h
      omega
    simp only [getElem?_append_separated hle hi hr]

theorem signedNumberLength_eq (cs : List Char) :
    signedNumberLength cs =
      match lengthToSign .outside (cs.drop 1) with
      | some middle =>
        if exponentDigits (cs.drop (middle + 2)) = 0 then 0
        else middle + 2 + exponentDigits (cs.drop (middle + 2))
      | none => 0 := by
  unfold signedNumberLength
  cases lengthToSign .outside (cs.drop 1) with
  | none => rfl
  | some middle =>
    simp only [exponentDigits]
    by_cases hz : runLength isNumberDigit (cs.drop (middle + 2)) = 0
    · simp [hz]
    · simp [hz, Nat.add_assoc]

theorem signedNumberLength_append {p r r' : List Char} (hp : p ≠ [])
    (h : signedNumberLength (p ++ r) ≤ p.length) (hr : Separated r') :
    signedNumberLength (p ++ r') = signedNumberLength (p ++ r) := by
  obtain ⟨c, q, rfl⟩ := List.exists_cons_of_ne_nil hp
  simp only [signedNumberLength_eq, List.cons_append, List.drop_succ_cons, List.drop_zero] at h ⊢
  rcases lengthToSign_append .outside q r r' hr with ⟨m, h1, hm, h2⟩ | ⟨h2, h1⟩
  · simp only [h1, h2] at h ⊢
    rw [List.drop_append_of_le_length (by omega)] at h ⊢
    rw [List.drop_append_of_le_length (by omega)]
    have he : exponentDigits (q.drop (m + 1) ++ r') = exponentDigits (q.drop (m + 1) ++ r) := by
      refine exponentDigits_append ?_ hr
      by_cases hz : exponentDigits (q.drop (m + 1) ++ r) = 0
      · omega
      · rw [if_neg hz] at h
        simp only [List.length_cons, List.length_drop] at h ⊢
        omega
    rw [he]
  · rw [h2]
    cases hm : lengthToSign .outside (q ++ r) with
    | none => rfl
    | some m =>
      have := h1 m hm
      rw [hm] at h
      by_cases hz : exponentDigits ((q ++ r).drop (m + 1)) = 0
      · simp only [hz, ↓reduceIte]
      · simp only [hz, ↓reduceIte, List.length_cons] at h
        omega

theorem numberLength_append {p r r' : List Char} (hp : p ≠ [])
    (h : numberLength (p ++ r) ≤ p.length) (hr : Separated r') :
    numberLength (p ++ r') = numberLength (p ++ r) := by
  unfold numberLength at h ⊢
  rw [plainNumberLength_append (r := r) (by omega) hr,
    signedNumberLength_append (r := r) hp (by omega) hr]

/-! ## Fractions -/

theorem runLength_separated {r : List Char} (hr : Separated r) : runLength isNumberDigit r = 0 := by
  cases r with
  | nil => rfl
  | cons d s => simp [runLength_cons, isNumberDigit_separated hr d rfl]

theorem exponentLength_append {q r r' : List Char} (h : exponentLength (q ++ r) ≤ q.length)
    (hr : Separated r') : exponentLength (q ++ r') = exponentLength (q ++ r) := by
  rcases q with _ | ⟨e, _ | ⟨sign, q⟩⟩
  · have hz : exponentLength r = 0 := by simpa using h
    cases r' with
    | nil => simpa [exponentLength] using hz.symm
    | cons d s =>
      have hd := (separator_facts (hr d rfl)).2.2.2.2.2.2.2.2.2
      simp only [isExponentLetter, Bool.or_eq_false_iff] at hd
      simp only [List.nil_append, hz]
      simp [exponentLength, hd]
  · by_cases he : e == 'e' || e == 'E'
    · have hz : exponentLength ([e] ++ r) = 0 := by
        simp only [List.cons_append, List.nil_append, exponentLength, he, ↓reduceIte,
          List.length_cons, List.length_nil] at h ⊢
        cases r with
        | nil => rfl
        | cons sign rest =>
          simp only at h ⊢
          by_cases hs : sign == '+' || sign == '-'
          · by_cases hd : runLength isNumberDigit rest = 0
            · simp [hs, hd]
            · simp only [hs, hd, ↓reduceIte] at h; omega
          · by_cases hd : runLength isNumberDigit (sign :: rest) = 0
            · simp [hs, hd]
            · simp only [hs, hd, Bool.false_eq_true, ↓reduceIte] at h; omega
      rw [hz]
      simp only [List.cons_append, List.nil_append, exponentLength, he, ↓reduceIte]
      cases r' with
      | nil => rfl
      | cons d s =>
        obtain ⟨-, -, -, -, -, hp, hm, -⟩ := separator_facts (hr d rfl)
        simp [hp, hm, runLength_separated hr]
    · simp [exponentLength, he]
  · by_cases he : e == 'e' || e == 'E'
    · simp only [List.cons_append, exponentLength, he, ↓reduceIte, List.length_cons] at h ⊢
      by_cases hs : sign == '+' || sign == '-'
      · simp only [hs, ↓reduceIte] at h ⊢
        have hle : runLength isNumberDigit (q ++ r) ≤ q.length := by
          by_cases hd : runLength isNumberDigit (q ++ r) = 0
          · omega
          · rw [if_neg hd] at h; omega
        rw [runLength_append hle (isNumberDigit_separated hr)]
      · simp only [hs, Bool.false_eq_true, ↓reduceIte] at h ⊢
        have hle : runLength isNumberDigit (sign :: q ++ r) ≤ (sign :: q).length := by
          simp only [List.cons_append, List.length_cons]
          by_cases hd : runLength isNumberDigit (sign :: (q ++ r)) = 0
          · omega
          · rw [if_neg hd] at h; omega
        have := runLength_append hle (isNumberDigit_separated hr)
        simp only [List.cons_append] at this
        rw [this]
    · simp [exponentLength, he]

theorem fractionLength_append {q r r' : List Char} (h : fractionLength (q ++ r) ≤ q.length)
    (hr : Separated r') : fractionLength (q ++ r') = fractionLength (q ++ r) := by
  simp only [fractionLength] at h ⊢
  have hrun := runLength_append (q := q) (r := r) (by omega) (isNumberDigit_separated hr)
  rw [hrun]
  generalize runLength isNumberDigit (q ++ r) = n at h hrun ⊢
  have hexp : exponentLength ((q ++ r').drop n) = exponentLength ((q ++ r).drop n) := by
    rw [List.drop_append_of_le_length (by omega), List.drop_append_of_le_length (by omega)]
    refine exponentLength_append ?_ hr
    rw [← List.drop_append_of_le_length (by omega), List.length_drop]
    omega
  rw [hexp]
  generalize exponentLength ((q ++ r).drop n) = m at h ⊢
  have hi : (q ++ r)[n + m]? = some 'i' → n + m < q.length := by
    intro hi
    rw [if_pos hi] at h
    omega
  simp only [getElem?_append_separated (by omega) hi hr]

theorem fractionLength_pos {cs : List Char} (h : (cs.head?.map Char.isDigit).getD false) :
    0 < fractionLength cs := by
  cases cs with
  | nil => simp at h
  | cons d s =>
    have hd : isNumberDigit d = true := by simpa [isNumberDigit] using .inl h
    simp only [fractionLength, runLength_cons, hd, ↓reduceIte]
    omega

/-! ## Quotes and comments -/

theorem runLength_append_of_lt {p : Char → Bool} {q r : List Char} (r' : List Char)
    (h : runLength p (q ++ r) < q.length) : runLength p (q ++ r') = runLength p (q ++ r) := by
  induction q with
  | nil => simp at h
  | cons c q ih =>
    simp only [List.cons_append, runLength_cons, List.length_cons] at h ⊢
    by_cases hc : p c
    · simp only [hc, ↓reduceIte] at h ⊢
      rw [ih (by omega)]
    · simp [hc]

theorem quotedBody_escape (quote d : Char) (cs : List Char) :
    quotedBody quote ('\\' :: d :: cs) =
      if d = '\n' then (0, false)
      else ((quotedBody quote cs).1 + 2, (quotedBody quote cs).2) := rfl

theorem quotedBody_of_ne {quote c : Char} (cs : List Char) (hc : c ≠ '\\') :
    quotedBody quote (c :: cs) =
      if c = quote then (0, true)
      else if c = '\n' then (0, false)
      else ((quotedBody quote cs).1 + 1, (quotedBody quote cs).2) := by
  rw [quotedBody]
  · simp [hc]
  · intro d ds he
    exact absurd he hc

theorem quotedBody_append {quote : Char} (hquote : quote ≠ '\\') (q r r' : List Char)
    (hclosed : (quotedBody quote (q ++ r)).2 = true)
    (hlen : (quotedBody quote (q ++ r)).1 + 1 ≤ q.length) :
    quotedBody quote (q ++ r') = quotedBody quote (q ++ r) := by
  match q with
  | [] => simp at hlen
  | [c] =>
    by_cases hc : c = '\\'
    · subst hc
      cases r with
      | nil => simp [quotedBody, hquote.symm] at hclosed
      | cons d s =>
        by_cases hd : d = '\n'
        · simp [quotedBody_escape, hd] at hclosed
        · simp [quotedBody_escape, hd] at hlen
    · simp only [List.cons_append, quotedBody_of_ne _ hc] at hclosed hlen ⊢
      by_cases hq : c = quote
      · simp [hq]
      · by_cases hn : c = '\n'
        · simp [hn]
        · simp [hq, hn] at hlen
  | c :: d :: q =>
    by_cases hc : c = '\\'
    · subst hc
      simp only [List.cons_append, quotedBody_escape, List.length_cons] at hclosed hlen ⊢
      by_cases hd : d = '\n'
      · simp [hd]
      · simp only [hd, ↓reduceIte] at hclosed hlen ⊢
        rw [quotedBody_append hquote q r r' hclosed (by omega)]
    · simp only [List.cons_append, quotedBody_of_ne _ hc, List.length_cons] at hclosed hlen ⊢
      by_cases hq : c = quote
      · simp [hq]
      · by_cases hn : c = '\n'
        · simp [hn]
        · simp only [hq, hn, ↓reduceIte] at hclosed hlen ⊢
          have ih := quotedBody_append hquote (d :: q) r r' hclosed (by simp; omega)
          simp only [List.cons_append] at ih
          rw [ih]

theorem rawBody_append {quote : Char} {q r : List Char} (r' : List Char)
    (hclosed : (rawBody quote (q ++ r)).2 = true) (hlen : (rawBody quote (q ++ r)).1 + 1 ≤ q.length) :
    rawBody quote (q ++ r') = rawBody quote (q ++ r) := by
  simp only [rawBody, decide_eq_true_eq] at hclosed hlen ⊢
  rw [runLength_append_of_lt (r := r) r' (by omega)]
  simp only [Prod.mk.injEq, List.length_append, decide_eq_decide, true_and] at hclosed ⊢
  omega

theorem throughClose_cons (c : Char) (cs : List Char) :
    throughClose (c :: cs) =
      if c = '*' ∧ cs.head? = some '/' then some 2 else (throughClose cs).map (· + 1) := by
  by_cases h : c = '*' ∧ cs.head? = some '/'
  · obtain ⟨rfl, h⟩ := h
    cases cs with
    | nil => simp at h
    | cons d ds =>
      simp at h
      subst h
      rfl
  · rw [throughClose]
    · simp [h]
    · rintro d rfl rfl
      exact h ⟨rfl, rfl⟩

theorem throughClose_append {q r : List Char} {n : Nat} (r' : List Char)
    (h : throughClose (q ++ r) = some n) (hn : n ≤ q.length) :
    throughClose (q ++ r') = some n := by
  induction q generalizing n with
  | nil =>
    have hpos : throughClose r ≠ some 0 := by
      cases r with
      | nil => simp [throughClose]
      | cons c cs => rw [throughClose_cons]; split <;> simp
    have hz : n = 0 := by simpa using hn
    exact absurd (hz ▸ h) hpos
  | cons c q ih =>
    simp only [List.cons_append, throughClose_cons] at h ⊢
    by_cases hc : c = '*' ∧ (q ++ r).head? = some '/'
    · rw [if_pos hc] at h
      simp only [Option.some.injEq] at h
      cases q with
      | nil => simp at hn; omega
      | cons d q => rw [if_pos ⟨hc.1, by simpa using hc.2⟩, h]
    · rw [if_neg hc, Option.map_eq_some_iff] at h
      obtain ⟨m, hm, rfl⟩ := h
      simp only [List.length_cons, Nat.add_le_add_iff_right] at hn
      have hne : ¬ (c = '*' ∧ (q ++ r').head? = some '/') := by
        cases q with
        | nil =>
          have hz : m = 0 := by simpa using hn
          cases r with
          | nil => simp [throughClose] at hm
          | cons d s =>
            rw [hz, List.nil_append, throughClose_cons] at hm
            split at hm <;> simp at hm
        | cons d q => simpa using hc
      rw [if_neg hne, ih hm hn]
      rfl

/-! ## Fixed tokens -/

theorem fixedTokens_inner {text : List Char} {kind : TokenKind} (h : (text, kind) ∈ fixedTokens) :
    ∀ d ∈ text.tail, d ∉ separators := by
  have hall : fixedTokens.all fun e => e.1.tail.all fun d => !separators.contains d := by decide
  simp only [List.all_eq_true, Bool.not_eq_true', List.contains_eq_mem, decide_eq_false_iff_not]
    at hall
  exact hall _ h

theorem fixedTokens_nonempty {text : List Char} {kind : TokenKind}
    (h : (text, kind) ∈ fixedTokens) : text ≠ [] := by
  have hall : ∀ e ∈ fixedTokens, e.1 ≠ [] := by decide
  exact hall _ h

/-- No fixed token reaches over the end of a text into what follows it. -/
theorem prefix_of_fixedToken {text : List Char} {kind : TokenKind}
    (hmem : (text, kind) ∈ fixedTokens) {p r : List Char} (hp : p ≠ []) (hr : Separated r)
    (h : text <+: p ++ r) : text <+: p := by
  by_cases hlen : text.length ≤ p.length
  · exact List.prefix_of_prefix_length_le h (List.prefix_append p r) hlen
  · exfalso
    have hlt : p.length < text.length := by omega
    obtain ⟨t, ht⟩ := h
    have hd : text[p.length]? = r.head? := by
      have := congrArg (·[p.length]?) ht
      simp only [List.getElem?_append_left hlt, List.getElem?_append_right (Nat.le_refl _),
        Nat.sub_self] at this
      rw [this, List.head?_eq_getElem?]
    have hsome : r.head? = some text[p.length] := by rw [← hd, List.getElem?_eq_getElem hlt]
    refine fixedTokens_inner hmem text[p.length] ?_ (hr _ hsome)
    have hpos : 0 < p.length := List.length_pos_iff.mpr hp
    rw [List.mem_iff_getElem]
    exact ⟨p.length - 1, by simp; omega, by simp [List.getElem_tail]; congr 1; omega⟩

theorem fixedToken_append {p r r' : List Char} {kind : TokenKind} {n : Nat} (hp : p ≠ [])
    (h : fixedToken (p ++ r) = some (kind, n)) (hn : n ≤ p.length) (hr : Separated r') :
    fixedToken (p ++ r') = some (kind, n) := by
  simp only [fixedToken, Option.map_eq_some_iff] at h ⊢
  obtain ⟨⟨text, k⟩, hfind, he⟩ := h
  simp only [Prod.mk.injEq] at he
  obtain ⟨rfl, rfl⟩ := he
  rw [List.find?_eq_some_iff_append] at hfind
  obtain ⟨hpre, before, after, hsplit, hbefore⟩ := hfind
  refine ⟨(text, k), ?_, rfl⟩
  rw [List.find?_eq_some_iff_append]
  have hin : text <+: p :=
    List.prefix_of_prefix_length_le (List.isPrefixOf_iff_prefix.mp hpre) (List.prefix_append p r) hn
  refine ⟨List.isPrefixOf_iff_prefix.mpr (hin.trans (List.prefix_append p r')), before, after,
    hsplit, ?_⟩
  rintro ⟨t, j⟩ ht
  have hno := hbefore _ ht
  simp only [Bool.not_eq_true', ← Bool.not_eq_true, List.isPrefixOf_iff_prefix] at hno ⊢
  intro hyes
  have hmem : (t, j) ∈ fixedTokens := by rw [hsplit]; simp [ht]
  exact hno ((prefix_of_fixedToken hmem hp hr hyes).trans (List.prefix_append p r))

/-! ## Bounds -/

theorem plainNumberLength_le (cs : List Char) : plainNumberLength cs ≤ cs.length := by
  have hpoint : ∀ s : List Char, pointLength s ≤ s.length := by
    intro s
    cases s with
    | nil => simp [pointLength]
    | cons c s =>
      by_cases hc : c = '.'
      · subst hc
        have := runLength_le isNumberWord s
        simp only [pointLength, List.length_cons]
        omega
      · simp [pointLength, hc]
  rw [plainNumberLength_eq]
  have h1 := runLength_le isNumberWord cs
  have h2 := hpoint (cs.drop (runLength isNumberWord cs))
  rw [List.length_drop] at h2
  omega

theorem exponentDigits_le (cs : List Char) : exponentDigits cs ≤ cs.length := by
  have h1 := runLength_le isNumberDigit cs
  simp only [exponentDigits]
  by_cases hz : runLength isNumberDigit cs = 0
  · simp [hz]
  · by_cases hi : cs[runLength isNumberDigit cs]? = some 'i'
    · obtain ⟨hlt, -⟩ := List.getElem?_eq_some_iff.mp hi
      simp only [hz, hi, ↓reduceIte]
      omega
    · simp only [hz, hi, ↓reduceIte]
      omega

theorem signedNumberLength_le (cs : List Char) : signedNumberLength cs ≤ cs.length := by
  rw [signedNumberLength_eq]
  cases lengthToSign .outside (cs.drop 1) with
  | none => simp
  | some m =>
    have h := exponentDigits_le (cs.drop (m + 2))
    rw [List.length_drop] at h
    by_cases hz : exponentDigits (cs.drop (m + 2)) = 0
    · simp [hz]
    · simp only [hz, ↓reduceIte]
      omega

theorem exponentLength_le (cs : List Char) : exponentLength cs ≤ cs.length := by
  rcases cs with _ | ⟨e, _ | ⟨sign, cs⟩⟩
  · simp [exponentLength]
  · simp [exponentLength]
  · have h1 := runLength_le isNumberDigit cs
    have h2 := runLength_le isNumberDigit (sign :: cs)
    simp only [exponentLength, List.length_cons] at h2 ⊢
    by_cases he : e == 'e' || e == 'E'
    · by_cases hs : sign == '+' || sign == '-'
      · by_cases hd : runLength isNumberDigit cs = 0
        · simp [he, hs, hd]
        · simp only [he, hs, hd, ↓reduceIte]
          omega
      · by_cases hd : runLength isNumberDigit (sign :: cs) = 0
        · simp [he, hs, hd]
        · simp only [he, hs, hd, ↓reduceIte, Bool.false_eq_true]
          omega
    · simp [he]

theorem fractionLength_le (cs : List Char) : fractionLength cs ≤ cs.length := by
  have h1 := runLength_le isNumberDigit cs
  have h2 := exponentLength_le (cs.drop (runLength isNumberDigit cs))
  rw [List.length_drop] at h2
  simp only [fractionLength]
  by_cases hi : cs[runLength isNumberDigit cs +
      exponentLength (cs.drop (runLength isNumberDigit cs))]? = some 'i'
  · obtain ⟨hlt, -⟩ := List.getElem?_eq_some_iff.mp hi
    simp only [hi, ↓reduceIte]
    omega
  · simp only [hi, ↓reduceIte]
    omega

theorem quotedBody_le (quote : Char) (cs : List Char) :
    (quotedBody quote cs).1 + (if (quotedBody quote cs).2 then 1 else 0) ≤ cs.length := by
  match cs with
  | [] => simp [quotedBody]
  | [c] =>
    by_cases hc : c = '\\'
    · subst hc
      by_cases hq : '\\' = quote
      · subst hq; simp [quotedBody]
      · simp [quotedBody, hq]
    · rw [quotedBody_of_ne _ hc]
      by_cases hq : c = quote
      · simp [hq]
      · by_cases hn : c = '\n'
        · subst hn; simp [hq]
        · simp [hq, hn, quotedBody]
  | c :: d :: cs =>
    by_cases hc : c = '\\'
    · subst hc
      rw [quotedBody_escape]
      by_cases hd : d = '\n'
      · simp [hd]
      · have ih := quotedBody_le quote cs
        simp only [hd, ↓reduceIte, List.length_cons]
        omega
    · rw [quotedBody_of_ne _ hc]
      by_cases hq : c = quote
      · simp [hq]
      · by_cases hn : c = '\n'
        · subst hn; simp [hq]
        · have ih := quotedBody_le quote (d :: cs)
          simp only [hq, hn, ↓reduceIte, List.length_cons] at ih ⊢
          omega

theorem throughClose_le {cs : List Char} {n : Nat} (h : throughClose cs = some n) :
    n ≤ cs.length := by
  induction cs generalizing n with
  | nil => simp [throughClose] at h
  | cons c cs ih =>
    rw [throughClose_cons] at h
    by_cases hc : c = '*' ∧ cs.head? = some '/'
    · rw [if_pos hc] at h
      cases cs with
      | nil => simp at hc
      | cons d s =>
        simp only [Option.some.injEq, List.length_cons] at h ⊢
        omega
    · rw [if_neg hc, Option.map_eq_some_iff] at h
      obtain ⟨m, hm, rfl⟩ := h
      have := ih hm
      simp only [List.length_cons]
      omega

end LiteralFill
