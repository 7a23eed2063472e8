import LiteralFill.Proofs.Digits
import LiteralFill.Proofs.Lexing.Comment
import Mathlib.Data.Nat.Digits.Defs
import Mathlib.Tactic.IntervalCases

/-!
Integer literals. The value that is read from a literal is the number that its digits stand for, if it fits in 64 bits.
From a number token without underscores that is no integer literal nothing is read: a sign stands only behind the letter
of an exponent, so it is never taken for the sign of the digits.
-/

namespace LiteralFill

/-! ## The grammar -/

/-- A digit of a base up to sixteen and its value. Behind nine the digits are letters, in either case. -/
structure IsDigit (base : Nat) (c : Char) (d : Nat) : Prop where
  lt : d < base
  written : c.toLower = d.digitChar

/-- Digits of a base and their values. One underscore may stand between two digits. -/
inductive AreDigits (base : Nat) : List Char → List Nat → Prop
  | last {c : Char} {d : Nat} (h : IsDigit base c d) : AreDigits base [c] [d]
  | next {c : Char} {d : Nat} {cs : List Char} {ds : List Nat} (h : IsDigit base c d) (more : AreDigits base cs ds) :
      AreDigits base (c :: cs) (d :: ds)
  | separated {c : Char} {d : Nat} {cs : List Char} {ds : List Nat} (h : IsDigit base c d)
      (more : AreDigits base cs ds) : AreDigits base (c :: '_' :: cs) (d :: ds)

/-- The base that a letter behind a zero stands for. -/
def markedBase : Char → Option Nat
  | 'b' | 'B' => some 2
  | 'o' | 'O' => some 8
  | 'x' | 'X' => some 16
  | _ => none

/-- The integer literals and the numbers that they stand for. One underscore may stand behind a zero that begins an octal
literal, and behind the mark of a base. -/
inductive IsIntegerLiteral : List Char → Nat → Prop
  | zero : IsIntegerLiteral ['0'] 0
  | decimal {c : Char} {cs : List Char} {ds : List Nat} (hc : c ≠ '0') (h : AreDigits 10 (c :: cs) ds) :
      IsIntegerLiteral (c :: cs) (Nat.ofDigits 10 ds.reverse)
  | octal {sep cs : List Char} {ds : List Nat} (hsep : sep ∈ [[], ['_']]) (h : AreDigits 8 cs ds) :
      IsIntegerLiteral ('0' :: (sep ++ cs)) (Nat.ofDigits 8 ds.reverse)
  | marked {mark : Char} {base : Nat} {sep cs : List Char} {ds : List Nat} (hmark : markedBase mark = some base)
      (hsep : sep ∈ [[], ['_']]) (h : AreDigits base cs ds) :
      IsIntegerLiteral ('0' :: mark :: (sep ++ cs)) (Nat.ofDigits base ds.reverse)

/-- The text of a number token of some source text. -/
def IsNumberToken (text : List Char) : Prop := ∃ source, ∃ t ∈ (tokenize source).1, t.kind = .number ∧ t.text = text

/-! ## Lower case -/

theorem toNat_toLower (c : Char) :
    c.toLower.toNat = if 65 ≤ c.toNat ∧ c.toNat ≤ 90 then c.toNat + 32 else c.toNat := by
  have hupper : (c.val ≥ 'A'.val ∧ c.val ≤ 'Z'.val) ↔ 65 ≤ c.toNat ∧ c.toNat ≤ 90 := by
    rw [ge_iff_le, UInt32.le_iff_toNat_le, UInt32.le_iff_toNat_le]
    rfl
  by_cases h : 65 ≤ c.toNat ∧ c.toNat ≤ 90
  · have hval : c.toLower.toNat = (c.val + 32).toNat := congrArg Char.toNat (dif_pos (hupper.mpr h))
    have hlt : c.val.toNat + 32 < 2 ^ 32 := by
      have : c.val.toNat ≤ 90 := h.2
      omega
    rw [if_pos h, hval, UInt32.toNat_add]
    exact Nat.mod_eq_of_lt hlt
  · rw [if_neg h]
    exact congrArg Char.toNat (dif_neg (mt hupper.mp h))

/-- A character that is no lower-case letter has no other one in upper case. -/
theorem eq_of_toLower {c d : Char} (hd : d.toNat < 97) (h : c.toLower = d) : c = d := by
  have hnat := toNat_toLower c
  rw [h] at hnat
  refine Char.toNat_inj.mp ?_
  split at hnat <;> omega

theorem toLower_ne_upper (c : Char) : ¬ (65 ≤ c.toLower.toNat ∧ c.toLower.toNat ≤ 90) := by
  have hnat := toNat_toLower c
  split at hnat <;> omega

/-- The letters that mark a base are those that are one of three in lower case. -/
theorem markedBase_eq_none {c : Char} : markedBase c = none ↔ c.toLower ∉ ['x', 'o', 'b'] := by
  have hcase (upper : Char) {lower : Char} (hlower : lower.toNat = upper.toNat + 32) (hletter : 97 ≤ lower.toNat) :
      c.toLower = lower → c = lower ∨ c = upper := by
    intro h
    have hnat := toNat_toLower c
    rw [h] at hnat
    split at hnat
    · exact .inr (Char.toNat_inj.mp (by omega))
    · exact .inl (Char.toNat_inj.mp hnat.symm)
  constructor
  · intro h hmem
    simp only [List.mem_cons, List.not_mem_nil, or_false] at hmem
    rcases hmem with hx | ho | hb
    · rcases hcase 'X' rfl (by decide) hx with rfl | rfl <;> cases h
    · rcases hcase 'O' rfl (by decide) ho with rfl | rfl <;> cases h
    · rcases hcase 'B' rfl (by decide) hb with rfl | rfl <;> cases h
  · intro h
    unfold markedBase
    split
    case h_7 => rfl
    all_goals exact absurd (by decide) h

/-! ## Digits -/

theorem digitValue_digitChar : ∀ d < 16, digitValue d.digitChar = some d := by decide

theorem digitChar_ne : ∀ d < 16, d.digitChar ≠ '_' ∧ d.digitChar ≠ '+' ∧ d.digitChar ≠ '.' := by decide

/-- A character of a value below sixteen is the digit of this value, if it is no upper-case letter. -/
theorem eq_digitChar {c : Char} {d : Nat} (hlower : ¬ (65 ≤ c.toNat ∧ c.toNat ≤ 90)) (hd : d < 16)
    (h : digitValue c = some d) : c = d.digitChar := by
  have hle (a b : Char) : a ≤ b ↔ a.toNat ≤ b.toNat := UInt32.le_iff_toNat_le
  have hrange : c.toNat = 48 + d ∧ d < 10 ∨ c.toNat = 87 + d ∧ 10 ≤ d := by
    unfold digitValue at h
    simp only [hle, Char.reduceToNat] at h
    split at h
    · have := Option.some.inj h
      omega
    · split at h
      · have := Option.some.inj h
        omega
      · cases h
  rw [← Char.ofNat_toNat c]
  rcases hrange with ⟨hc, hsmall⟩ | ⟨hc, hlarge⟩
  · rw [hc]
    interval_cases d <;> rfl
  · rw [hc]
    interval_cases d <;> rfl

/-- The number that digits stand for behind others of value `n`. -/
def digitsFrom (base n : Nat) (ds : List Nat) : Nat := ds.foldl (fun n d => n * base + d) n

theorem digitsFrom_zero (base : Nat) (ds : List Nat) : digitsFrom base 0 ds = Nat.ofDigits base ds.reverse := by
  rw [Nat.ofDigits_eq_foldr, List.foldr_reverse, digitsFrom]
  exact congrArg (fun f => ds.foldl f 0) (funext₂ fun n d => by simp [Nat.mul_comm, Nat.add_comm])

theorem IsDigit.ne {base d : Nat} {c : Char} (h : IsDigit base c d) (hbase : base ≤ 16) : c ≠ '_' ∧ c ≠ '+' ∧ c ≠ '.' := by
  have hd := digitChar_ne d (Nat.lt_of_lt_of_le h.lt hbase)
  rw [← h.written] at hd
  refine ⟨?_, ?_, ?_⟩ <;> rintro rfl
  · exact hd.1 rfl
  · exact hd.2.1 rfl
  · exact hd.2.2 rfl

theorem isDigit_of_digitValue {base d : Nat} {c : Char} (hbase : base ≤ 16) (hd : d < base)
    (h : digitValue c.toLower = some d) : IsDigit base c d :=
  ⟨hd, eq_digitChar (toLower_ne_upper c) (Nat.lt_of_lt_of_le hd hbase) h⟩

/-- The characters of a text that count for its value, in lower case. -/
def countedText (cs : List Char) : List Char := (cs.filter (· != '_')).map Char.toLower

theorem countedText_cons {c : Char} (hc : c ≠ '_') (cs : List Char) :
    countedText (c :: cs) = c.toLower :: countedText cs := by
  simp [countedText, hc]

theorem countedText_underscore (cs : List Char) : countedText ('_' :: cs) = countedText cs := rfl

theorem countedText_separated {sep : List Char} (hsep : sep ∈ [[], ['_']]) (cs : List Char) :
    countedText (sep ++ cs) = countedText cs := by
  simp only [List.mem_cons, List.not_mem_nil, or_false] at hsep
  rcases hsep with rfl | rfl <;> rfl

theorem countedText_of_not_mem {cs : List Char} (h : '_' ∉ cs) : countedText cs = cs.map Char.toLower := by
  rw [countedText, List.filter_eq_self.mpr]
  intro c hc
  rw [bne_iff_ne]
  rintro rfl
  exact h hc

namespace AreDigits

variable {base : Nat} {cs : List Char} {ds : List Nat}

theorem ne_nil (h : AreDigits base cs ds) : ds ≠ [] := by cases h <;> simp

theorem first {c : Char} (h : AreDigits base (c :: cs) ds) : ∃ d, IsDigit base c d := by
  cases h <;> exact ⟨_, ‹_›⟩

theorem lt (h : AreDigits base cs ds) : ∀ d ∈ ds, d < base := by
  induction h with
  | last h => simpa using h.lt
  | next h more ih => exact List.forall_mem_cons.mpr ⟨h.lt, ih⟩
  | separated h more ih => exact List.forall_mem_cons.mpr ⟨h.lt, ih⟩

theorem countedText (hbase : base ≤ 16) (h : AreDigits base cs ds) : countedText cs = ds.map Nat.digitChar := by
  induction h with
  | last h =>
    rw [countedText_cons (h.ne hbase).1, h.written]
    rfl
  | next h more ih => rw [countedText_cons (h.ne hbase).1, h.written, ih, List.map_cons]
  | separated h more ih =>
    rw [countedText_cons (h.ne hbase).1, countedText_underscore, h.written, ih, List.map_cons]

end AreDigits

/-! ## Digits read -/

theorem digitsValue_digits {base : Nat} (hbase : base ≤ 16) {ds : List Nat} (h : ∀ d ∈ ds, d < base) (n : Nat) :
    digitsValue base n (ds.map Nat.digitChar) = some (digitsFrom base n ds) := by
  induction ds generalizing n with
  | nil => rfl
  | cons d ds ih =>
    rw [List.forall_mem_cons] at h
    rw [List.map_cons, digitsValue, digitValue_digitChar d (Nat.lt_of_lt_of_le h.1 hbase)]
    simp only [h.1, ↓reduceIte]
    exact ih h.2 _

/-- Digits are read as the number that they stand for, if it fits. -/
theorem boundedNumber_digits {base : Nat} (hbase : base ≤ 16) {ds : List Nat} (hne : ds ≠ [])
    (h : ∀ d ∈ ds, d < base) :
    boundedNumber base (ds.map Nat.digitChar) =
      if Nat.ofDigits base ds.reverse < 2 ^ 64 then some (Nat.ofDigits base ds.reverse) else none := by
  have hsign : (ds.map Nat.digitChar).head? ≠ some '+' := by
    obtain ⟨d, ds, rfl⟩ := List.exists_cons_of_ne_nil hne
    have hd := h d List.mem_cons_self
    rw [List.map_cons, List.head?_cons, ne_eq, Option.some.injEq]
    exact (digitChar_ne d (Nat.lt_of_lt_of_le hd hbase)).2.1
  rw [boundedNumber, if_neg hsign]
  simp only [List.isEmpty_map, List.isEmpty_eq_false_iff.mpr hne, Bool.false_eq_true, ↓reduceIte]
  rw [digitsValue_digits hbase h, digitsFrom_zero, Option.filter_some]
  simp only [decide_eq_true_eq]
  rfl

/-- What is read as digits of value below the base is digits of the base. -/
theorem areDigits_of_digitsValue {base : Nat} (hbase : base ≤ 16) {c : Char} {cs : List Char} {n m : Nat}
    (h : digitsValue base n ((c :: cs).map Char.toLower) = some m) :
    ∃ ds, AreDigits base (c :: cs) ds ∧ m = digitsFrom base n ds := by
  induction cs generalizing c n with
  | nil =>
    rw [List.map_cons, digitsValue] at h
    split at h
    · next d hvalue =>
      split at h
      · next hd =>
        cases h
        exact ⟨[d], .last (isDigit_of_digitValue hbase hd hvalue), rfl⟩
      · cases h
    · cases h
  | cons c' cs ih =>
    rw [List.map_cons, digitsValue] at h
    split at h
    · next d hvalue =>
      split at h
      · next hd =>
        obtain ⟨ds, hds, rfl⟩ := ih h
        exact ⟨d :: ds, .next (isDigit_of_digitValue hbase hd hvalue) hds, rfl⟩
      · cases h
    · cases h

/-- What is read as a number without a sign is digits. -/
theorem areDigits_of_boundedNumber {base : Nat} (hbase : base ≤ 16) {cs : List Char} {n : Nat}
    (hsign : cs.head? ≠ some '+') (h : boundedNumber base (cs.map Char.toLower) = some n) :
    ∃ ds, AreDigits base cs ds ∧ n = Nat.ofDigits base ds.reverse := by
  have hsign' : (cs.map Char.toLower).head? ≠ some '+' := by
    intro hhead
    rw [List.head?_map, Option.map_eq_some_iff] at hhead
    obtain ⟨c, hc, hplus⟩ := hhead
    exact hsign (by rw [hc, eq_of_toLower (by decide) hplus])
  rw [boundedNumber, if_neg hsign'] at h
  cases cs with
  | nil => cases h
  | cons c cs =>
    simp only [List.map_cons, List.isEmpty_cons, Bool.false_eq_true, ↓reduceIte] at h
    obtain ⟨ds, hds, rfl⟩ := areDigits_of_digitsValue hbase (Option.filter_eq_some_iff.mp h).1
    exact ⟨ds, hds, digitsFrom_zero base ds⟩

/-! ## Literals read -/

theorem integerValue_marked {text cs : List Char} {mark : Char} {base : Nat} (hmark : markedBase mark = some base)
    (h : countedText text = '0' :: mark.toLower :: cs) : integerValue text = boundedNumber base cs := by
  unfold countedText at h
  unfold markedBase at hmark
  rw [integerValue, h]
  split at hmark <;> cases hmark <;> rfl

theorem integerValue_octal {text cs : List Char} {c : Char} (hc : c ∉ ['x', 'o', 'b'])
    (h : countedText text = '0' :: c :: cs) : integerValue text = boundedNumber 8 (c :: cs) := by
  simp only [List.mem_cons, List.not_mem_nil, or_false, not_or] at hc
  unfold countedText at h
  rw [integerValue, h]
  split
  case h_1 heq => exact absurd (by simp_all) hc.1
  case h_2 heq => exact absurd (by simp_all) hc.2.1
  case h_3 heq => exact absurd (by simp_all) hc.2.2
  case h_4 heq => simp_all
  case h_5 hall => exact absurd rfl (hall _ _)

theorem integerValue_decimal {text : List Char} (h : ∀ c cs, countedText text ≠ '0' :: c :: cs) :
    integerValue text = boundedNumber 10 (countedText text) := by
  unfold countedText at h ⊢
  rw [integerValue]
  split
  case h_5 => rfl
  all_goals exact absurd ‹_› (h _ _)

theorem markedBase_facts {mark : Char} {base : Nat} (h : markedBase mark = some base) :
    base ≤ 16 ∧ mark ≠ '_' ∧ mark ≠ 'i' ∧ isExponentLetter mark = false := by
  unfold markedBase at h
  split at h <;> cases h <;> decide

/-- The value that is read from an integer literal is the number that it stands for, if it fits. -/
theorem IsIntegerLiteral.integerValue {text : List Char} {n : Nat} (h : IsIntegerLiteral text n) :
    integerValue text = if n < 2 ^ 64 then some n else none := by
  cases h with
  | zero => rfl
  | @decimal c cs ds hc h =>
    have hdigits := h.countedText (by decide)
    have hfirst : ∀ d ds', countedText (c :: cs) ≠ '0' :: d :: ds' := by
      intro d ds' hzero
      obtain ⟨d, hd⟩ := h.first
      rw [countedText_cons (hd.ne (by decide)).1] at hzero
      exact hc (eq_of_toLower (by decide) (List.cons.inj hzero).1)
    rw [integerValue_decimal hfirst, hdigits, boundedNumber_digits (by decide) h.ne_nil h.lt]
  | @octal sep cs ds hsep h =>
    have htext : countedText ('0' :: (sep ++ cs)) = '0' :: ds.map Nat.digitChar := by
      rw [countedText_cons (by decide), countedText_separated hsep, h.countedText (by decide)]
      rfl
    have hread := boundedNumber_digits (by decide) h.ne_nil h.lt
    have hlt := h.lt
    obtain ⟨d, ds, rfl⟩ := List.exists_cons_of_ne_nil h.ne_nil
    have hmark : ∀ d < 8, d.digitChar ∉ ['x', 'o', 'b'] := by decide
    rw [integerValue_octal (hmark d (hlt d List.mem_cons_self)) htext, ← List.map_cons, hread]
  | @marked mark base sep cs ds hmark hsep h =>
    obtain ⟨hbase, hunderscore, -⟩ := markedBase_facts hmark
    have htext : countedText ('0' :: mark :: (sep ++ cs)) = '0' :: mark.toLower :: ds.map Nat.digitChar := by
      rw [countedText_cons (by decide), countedText_cons hunderscore, countedText_separated hsep, h.countedText hbase]
      rfl
    rw [integerValue_marked hmark htext, boundedNumber_digits hbase h.ne_nil h.lt]

/-! ## Number tokens -/

/-- No sign stands in the plain form of a number. -/
theorem not_mem_plainNumber (cs : List Char) : '+' ∉ cs.take (plainNumberLength cs) := by
  have hword (cs : List Char) : '+' ∉ cs.take (runLength isNumberWord cs) := by
    intro hmem
    rw [take_runLength] at hmem
    exact absurd (List.all_eq_true.mp List.all_takeWhile _ hmem) (by decide)
  rw [plainNumberLength_eq, List.take_add, List.mem_append, not_or]
  refine ⟨hword cs, ?_⟩
  cases hrest : cs.drop (runLength isNumberWord cs) with
  | nil => simp
  | cons c fraction =>
    by_cases hc : c = '.'
    · subst hc
      rw [pointLength, Nat.add_comm, List.take_succ_cons, List.mem_cons, not_or]
      exact ⟨by decide, hword fraction⟩
    · simp [pointLength, hc]

/-- The form with a signed exponent needs the letter of an exponent, or an `i`, behind the first digit. -/
theorem signedNumberLength_eq_zero {c m : Char} (cs : List Char) (hm : isExponentLetter m = false) (hi : m ≠ 'i') :
    signedNumberLength (c :: m :: cs) = 0 := by
  have hnext : ExponentPlace.next .outside m = none := by
    simp [ExponentPlace.next, hm, hi]
  simp [signedNumberLength, lengthToSign, hnext]

/-- A lexeme is what stands at its first character. -/
theorem exists_lexemeAt {text : List Char} {l : Lexeme} (h : l ∈ lexemes text) :
    ∃ c cs, l = ⟨(lexemeAt c cs).1, (c :: cs).take (lexemeAt c cs).2⟩ := by
  obtain ⟨before, after, hsplit⟩ := List.append_of_mem h
  have hrest := lexemes_of_append before hsplit
  cases htext : lexemesText (l :: after) with
  | nil =>
    rw [htext] at hrest
    cases hrest
  | cons c cs =>
    rw [htext, lexemes_cons] at hrest
    exact ⟨c, cs, (List.cons.inj hrest).1.symm⟩

/-- A number begins with a digit or with its point. -/
theorem begins_number {c : Char} {cs : List Char} (h : (lexemeAt c cs).1 = .token .number) : c.isDigit ∨ c = '.' := by
  have hquoted {kind : TokenKind} (body : Nat × Bool) (hkind : kind ≠ .number) :
      (quotedToken kind body).1 ≠ .token .number := by
    unfold quotedToken
    split <;> simp [hkind]
  cases lexeme_cases c cs with
  | blank hc =>
    rw [lexemeAt_blank _ hc] at h
    cases h
  | newline => cases h
  | byteOrderMark => cases h
  | word hc =>
    rw [lexemeAt_word _ hc] at h
    unfold wordKind at h
    split at h
    · split at h <;> cases h
    · cases h
  | number hc => exact .inl hc
  | fraction _ => exact .inr rfl
  | string =>
    rw [lexemeAt_string] at h
    exact absurd h (hquoted _ (by decide))
  | rawString =>
    rw [lexemeAt_rawString] at h
    exact absurd h (hquoted _ (by decide))
  | rune =>
    rw [lexemeAt_rune] at h
    split at h
    · cases h
    · exact absurd h (hquoted _ (by decide))
  | lineComment hs =>
    subst hs
    rw [lexemeAt_lineComment] at h
    cases h
  | blockComment hs =>
    subst hs
    rw [lexemeAt_blockComment] at h
    split at h <;> cases h
  | fixed hc =>
    rw [lexemeAt_fixed hc] at h
    split at h
    · next kind n hfixed =>
      have hkinds : ∀ e ∈ fixedTokens, e.2 ≠ .number := by decide
      exact absurd (LexemeKind.token.inj h) (hkinds _ (fixedToken_text hfixed))
    · cases h

/-- How the text of a number token begins: with a point, or with a digit, and then it holds no sign unless there is the
letter of an exponent, or an `i`, behind that digit. -/
theorem numberToken_cases {text : List Char} (h : IsNumberToken text) (hne : text ≠ []) :
    (∃ cs, text = '.' :: cs) ∨ ∃ c cs, text = c :: cs ∧ c.isDigit ∧
      ∀ m ∈ cs.head?, isExponentLetter m = false → m ≠ 'i' → '+' ∉ cs := by
  obtain ⟨source, t, ht, hkind, rfl⟩ := h
  obtain ⟨kind, hplaced, htoken⟩ := lexeme_of_token ht hne
  obtain rfl : kind = .token .number := by
    rcases htoken with hkind' | ⟨-, hinvalid⟩
    · rw [hkind', hkind]
    · rw [hkind] at hinvalid
      cases hinvalid
  have hmem : (⟨.token .number, t.text⟩ : Lexeme) ∈ lexemes source := by
    rw [← placed_map_snd 0 (lexemes source)]
    exact List.mem_map_of_mem hplaced
  obtain ⟨c, cs, hlexeme⟩ := exists_lexemeAt hmem
  obtain ⟨hnumber, htext⟩ := Lexeme.mk.inj hlexeme
  obtain ⟨n, hn⟩ : ∃ n, (lexemeAt c cs).2 = n + 1 := Nat.exists_eq_add_one.mpr (lexemeAt_length c cs).1
  rw [hn, List.take_succ_cons] at htext
  rcases begins_number hnumber.symm with hdigit | rfl
  · refine .inr ⟨c, cs.take n, htext, hdigit, fun m hm hexponent himaginary => ?_⟩
    have hlength : (lexemeAt c cs).2 = plainNumberLength (c :: cs) := by
      cases cs with
      | nil => simp at hm
      | cons m' cs =>
        obtain rfl : m' = m := by
          cases n with
          | zero => simp at hm
          | succ n => simpa using hm
        rw [lexemeAt_number _ hdigit, numberLength, signedNumberLength_eq_zero cs hexponent himaginary, Nat.max_zero]
    have hplain := not_mem_plainNumber (c :: cs)
    rw [← hlength, hn, List.take_succ_cons, List.mem_cons, not_or] at hplain
    exact hplain.2
  · exact .inl ⟨cs.take n, htext⟩

/-- Behind a zero a base is marked, or octal digits follow. -/
theorem isIntegerLiteral_of_zero {cs : List Char} {n : Nat} (hplain : '_' ∉ '0' :: cs)
    (hsign : ∀ m ∈ cs.head?, isExponentLetter m = false → m ≠ 'i' → '+' ∉ cs) (h : integerValue ('0' :: cs) = some n) :
    IsIntegerLiteral ('0' :: cs) n := by
  have hcounted := countedText_of_not_mem hplain
  cases cs with
  | nil =>
    cases h
    exact .zero
  | cons m cs =>
    cases hmark : markedBase m with
    | some base =>
      obtain ⟨hbase, -, himaginary, hexponent⟩ := markedBase_facts hmark
      have hhead : cs.head? ≠ some '+' := by
        intro hplus
        exact hsign m rfl hexponent himaginary (List.mem_cons_of_mem m (List.mem_of_mem_head? hplus))
      rw [integerValue_marked hmark hcounted] at h
      obtain ⟨ds, hds, rfl⟩ := areDigits_of_boundedNumber hbase hhead h
      exact @IsIntegerLiteral.marked m base [] _ _ hmark (by simp) hds
    | none =>
      have hhead : (m :: cs).head? ≠ some '+' := by
        intro hplus
        obtain rfl : m = '+' := Option.some.inj hplus
        exact hsign '+' rfl (by decide) (by decide) List.mem_cons_self
      rw [integerValue_octal (markedBase_eq_none.mp hmark) hcounted] at h
      obtain ⟨ds, hds, rfl⟩ := areDigits_of_boundedNumber (by decide) hhead h
      exact @IsIntegerLiteral.octal [] _ _ (by simp) hds

/-- From a number token without underscores only an integer literal is read. -/
theorem isIntegerLiteral_of_integerValue {text : List Char} {n : Nat} (htoken : IsNumberToken text) (hplain : '_' ∉ text)
    (h : integerValue text = some n) : IsIntegerLiteral text n := by
  have hcounted := countedText_of_not_mem hplain
  have hne : text ≠ [] := by
    rintro rfl
    cases h
  rcases numberToken_cases htoken hne with ⟨cs, rfl⟩ | ⟨c, cs, rfl, hdigit, hsign⟩
  · have hfirst : ∀ d ds, countedText ('.' :: cs) ≠ '0' :: d :: ds := by
      intro d ds hzero
      rw [hcounted] at hzero
      cases hzero
    rw [integerValue_decimal hfirst, hcounted] at h
    obtain ⟨ds, hds, -⟩ := areDigits_of_boundedNumber (by decide) (by simp) h
    obtain ⟨d, hd⟩ := hds.first
    exact absurd rfl (hd.ne (by decide)).2.2
  · by_cases hc : c = '0'
    · subst hc
      exact isIntegerLiteral_of_zero hplain hsign h
    · have hfirst : ∀ d ds, countedText (c :: cs) ≠ '0' :: d :: ds := by
        intro d ds hzero
        rw [hcounted] at hzero
        exact hc (eq_of_toLower (by decide) (List.cons.inj hzero).1)
      have hhead : (c :: cs).head? ≠ some '+' := by
        intro hplus
        obtain rfl : c = '+' := Option.some.inj hplus
        cases hdigit
      rw [integerValue_decimal hfirst, hcounted] at h
      obtain ⟨ds, hds, rfl⟩ := areDigits_of_boundedNumber (by decide) hhead h
      exact .decimal hc hds

/-! ## The values -/

/-- The value that is read from an integer literal is the number that it stands for, if it is below `2 ^ 64`, and else
there is none. From a number token without underscores that is no integer literal none is read. -/
theorem integerValue_literal (text : List Char) :
    (∀ n, IsIntegerLiteral text n → integerValue text = if n < 2 ^ 64 then some n else none) ∧
      (IsNumberToken text → '_' ∉ text → (¬ ∃ n, IsIntegerLiteral text n) → integerValue text = none) := by
  refine ⟨fun n h => h.integerValue, fun htoken hplain hnone => ?_⟩
  cases hvalue : integerValue text with
  | none => rfl
  | some n => exact absurd ⟨n, isIntegerLiteral_of_integerValue htoken hplain hvalue⟩ hnone

/-- A hexadecimal literal with separators in it, and a number with a signed exponent. -/
theorem integerValue_separatedLiteral :
    IsIntegerLiteral "0X_1f_Ff".toList 8191 ∧ integerValue "0X_1f_Ff".toList = some 8191 ∧
      IsNumberToken "1e+5".toList ∧ '_' ∉ "1e+5".toList ∧ (¬ ∃ n, IsIntegerLiteral "1e+5".toList n) ∧
      integerValue "1e+5".toList = none := by
  have hliteral : IsIntegerLiteral "0X_1f_Ff".toList 8191 := by
    have hdigits : AreDigits 16 "1f_Ff".toList [1, 15, 15, 15] :=
      .next ⟨by decide, rfl⟩ (.separated ⟨by decide, rfl⟩ (.next ⟨by decide, rfl⟩ (.last ⟨by decide, rfl⟩)))
    exact @IsIntegerLiteral.marked 'X' 16 ['_'] _ _ rfl (by simp) hdigits
  have htoken : IsNumberToken "1e+5".toList := ⟨"1e+5".toList, ⟨.number, 0, "1e+5".toList⟩, by decide +kernel, rfl, rfl⟩
  have hnone : ¬ ∃ n, IsIntegerLiteral "1e+5".toList n := by
    rintro ⟨n, h⟩
    cases h with
    | decimal hc h =>
      cases h with
      | next h more =>
        obtain ⟨d, hd⟩ := more.first
        have hletter : ∀ d < 10, 'e'.toLower ≠ d.digitChar := by decide
        exact hletter d hd.lt hd.written
  exact ⟨hliteral, (integerValue_literal _).1 8191 hliteral, htoken, by decide, hnone,
    (integerValue_literal _).2 htoken (by decide) hnone⟩

end LiteralFill
