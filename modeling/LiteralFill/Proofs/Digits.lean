import LiteralFill.Syntax.Integer
import LiteralFill.Text.Blank
import Mathlib.Data.List.Basic

/-!
Numbers written in decimal digits. What is written for a number below the bound is read as that number, as digits
alone and as an integer literal.
-/

namespace LiteralFill

/-! ## Digits -/

theorem toNat_of_isDigit {c : Char} (h : c.isDigit) : 48 ≤ c.toNat ∧ c.toNat ≤ 57 := by
  simpa [Char.isDigit, UInt32.le_iff_toNat_le] using h

theorem isBlank_of_isDigit {c : Char} (h : c.isDigit) : isBlank c = false := by
  have hrange := toNat_of_isDigit h
  simp [isBlank, inRanges, blankRanges]
  omega

theorem digitValue_of_isDigit {c : Char} (h : c.isDigit) : digitValue c = some (c.toNat - '0'.toNat) := by
  have hrange : '0' ≤ c ∧ c ≤ '9' := by simpa [Char.isDigit, Char.le_def] using h
  rw [digitValue, if_pos hrange]

theorem digitsValue_of_isDigit {cs : List Char} (h : ∀ c ∈ cs, c.isDigit) (value : Nat) :
    digitsValue 10 value cs = some (Nat.ofDigitChars 10 cs value) := by
  induction cs generalizing value with
  | nil => rfl
  | cons c cs ih =>
    have hc := h c List.mem_cons_self
    have hlt : c.toNat - '0'.toNat < 10 := by
      have := toNat_of_isDigit hc
      have hzero : '0'.toNat = 48 := rfl
      omega
    rw [digitsValue, digitValue_of_isDigit hc]
    simp only [hlt, ↓reduceIte]
    rw [ih fun d hd => h d (List.mem_cons_of_mem c hd), Nat.ofDigitChars_cons, Nat.mul_comm]

theorem isDigit_toDigits {n : Nat} : ∀ c ∈ Nat.toDigits 10 n, c.isDigit := fun _ =>
  Nat.isDigit_of_mem_toDigits (by decide) (by decide)

/-- A number but zero is written without a zero in front. -/
theorem head?_toDigits {n : Nat} (h : 0 < n) : (Nat.toDigits 10 n).head? ≠ some '0' := by
  induction n using Nat.strongRecOn with
  | ind n ih =>
    rw [Nat.toDigits_eq_if (by decide)]
    split
    · intro hhead
      have hzero : n.digitChar = '0' := Option.some.inj hhead
      rw [Nat.digitChar_eq_zero] at hzero
      omega
    · rw [List.head?_append_of_ne_nil _ Nat.toDigits_ne_nil]
      exact ih (n / 10) (by omega) (by omega)

/-! ## Numbers -/

theorem boundedNumber_toDigits {n : Nat} (h : n < wordBound) : boundedNumber 10 (Nat.toDigits 10 n) = some n := by
  have hsign : (Nat.toDigits 10 n).head? ≠ some '+' := by
    intro hhead
    exact absurd (isDigit_toDigits _ (List.mem_of_head? hhead)) (by decide)
  have hne : (Nat.toDigits 10 n).isEmpty = false := by simp
  rw [boundedNumber, if_neg hsign]
  simp only [hne, Bool.false_eq_true, ↓reduceIte]
  rw [digitsValue_of_isDigit isDigit_toDigits, Nat.ofDigitChars_ten_toDigits]
  simp [h]

/-- A number in decimal digits is an integer literal of this value. -/
theorem integerValue_toDigits {n : Nat} (h : n < wordBound) : integerValue (Nat.toDigits 10 n) = some n := by
  have hkept : (Nat.toDigits 10 n).filter (· != '_') = Nat.toDigits 10 n := by
    rw [List.filter_eq_self]
    intro c hc
    have := toNat_of_isDigit (isDigit_toDigits c hc)
    rw [bne_iff_ne]
    rintro rfl
    exact absurd this (by decide)
  have hlower : (Nat.toDigits 10 n).map Char.toLower = Nat.toDigits 10 n := by
    refine (List.map_congr_left fun c hc => ?_).trans (List.map_id _)
    have := toNat_of_isDigit (isDigit_toDigits c hc)
    refine dif_neg ?_
    rintro ⟨hle, -⟩
    have hle : 65 ≤ c.toNat := UInt32.le_iff_toNat_le.mp hle
    omega
  have hdecimal : integerValue (Nat.toDigits 10 n) = boundedNumber 10 (Nat.toDigits 10 n) := by
    have hzero : ∀ d ds, Nat.toDigits 10 n ≠ '0' :: d :: ds := by
      intro d ds hdigits
      rcases Nat.eq_zero_or_pos n with rfl | hpos
      · cases hdigits
      · exact head?_toDigits hpos (by rw [hdigits]; rfl)
    rw [integerValue, hkept, hlower]
    split
    case h_5 => rfl
    all_goals exact absurd ‹_› (hzero _ _)
  rw [hdecimal, boundedNumber_toDigits h]

end LiteralFill
