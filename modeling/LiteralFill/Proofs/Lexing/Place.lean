import LiteralFill.Proofs.Lexing.Token

/-!
Lexemes at their places in a text. A text can be cut at the places where lexemes start and stop, and the
text between two cuts is made up of the lexemes placed between them. The tokens that stand for characters
are the token lexemes at their places.
-/

namespace LiteralFill

/-- Lexemes with the positions where they start, the first of them at `offset`. -/
def placed (offset : Nat) : List Lexeme → List (Nat × Lexeme)
  | [] => []
  | l :: ls => (offset, l) :: placed (offset + byteLength l.text) ls

@[simp] theorem placed_nil (offset : Nat) : placed offset [] = [] := rfl

@[simp] theorem placed_cons (offset : Nat) (l : Lexeme) (ls : List Lexeme) :
    placed offset (l :: ls) = (offset, l) :: placed (offset + byteLength l.text) ls := rfl

theorem placed_append (offset : Nat) (ls ms : List Lexeme) :
    placed offset (ls ++ ms) = placed offset ls ++ placed (offset + byteLength (lexemesText ls)) ms := by
  induction ls generalizing offset with
  | nil => rfl
  | cons l ls ih =>
    rw [List.cons_append, placed_cons, ih, placed_cons, lexemesText_cons, byteLength_append,
      List.cons_append, Nat.add_assoc]

theorem placed_map_snd (offset : Nat) (ls : List Lexeme) : (placed offset ls).map (·.2) = ls := by
  induction ls generalizing offset with
  | nil => rfl
  | cons l ls ih => rw [placed_cons, List.map_cons, ih]

theorem mem_placed {offset p : Nat} {l : Lexeme} {ls : List Lexeme} (h : (p, l) ∈ placed offset ls) :
    ∃ before after, ls = before ++ l :: after ∧ p = offset + byteLength (lexemesText before) := by
  induction ls generalizing offset with
  | nil => simp at h
  | cons m ls ih =>
    rcases List.mem_cons.mp h with h | h
    · obtain ⟨rfl, rfl⟩ := Prod.mk.inj h
      exact ⟨[], ls, rfl, rfl⟩
    · obtain ⟨before, after, rfl, rfl⟩ := ih h
      exact ⟨m :: before, after, rfl, by rw [lexemesText_cons, byteLength_append, Nat.add_assoc]⟩

theorem placed_bounds {offset p : Nat} {l : Lexeme} {ls : List Lexeme}
    (h : (p, l) ∈ placed offset ls) :
    offset ≤ p ∧ p + byteLength l.text ≤ offset + byteLength (lexemesText ls) := by
  obtain ⟨before, after, rfl, rfl⟩ := mem_placed h
  simp only [lexemesText_append, lexemesText_cons, byteLength_append]
  omega

/-! ## Cuts -/

/-- A place where a lexeme starts, or the last one stops. -/
def IsCut (ls : List Lexeme) (p : Nat) : Prop :=
  ∃ before after, ls = before ++ after ∧ byteLength (lexemesText before) = p

theorem isCut_of_mem {p : Nat} {l : Lexeme} {ls : List Lexeme} (h : (p, l) ∈ placed 0 ls) :
    IsCut ls p ∧ IsCut ls (p + byteLength l.text) := by
  obtain ⟨before, after, rfl, rfl⟩ := mem_placed h
  refine ⟨⟨before, l :: after, rfl, by omega⟩, before ++ [l], after, by simp, ?_⟩
  simp [byteLength_append]

/-- The lexemes placed from one position up to another. -/
def stretch (text : List Char) (a b : Nat) : List (Nat × Lexeme) :=
  (placed 0 (lexemes text)).filter fun e => a ≤ e.1 && e.1 < b

theorem mem_stretch {text : List Char} {a b : Nat} {e : Nat × Lexeme} :
    e ∈ stretch text a b ↔ e ∈ placed 0 (lexemes text) ∧ a ≤ e.1 ∧ e.1 < b := by
  simp [stretch]

/-- A list in the order of a measure, parted by a bound. -/
theorem filter_part {α : Type} (f : α → Nat) {xs : List α} (h : xs.Pairwise fun x y => f x ≤ f y)
    {a b c : Nat} (hab : a ≤ b) (hbc : b ≤ c) :
    (xs.filter fun x => a ≤ f x && f x < c) =
      (xs.filter fun x => a ≤ f x && f x < b) ++ (xs.filter fun x => b ≤ f x && f x < c) := by
  induction xs with
  | nil => rfl
  | cons x xs ih =>
    rw [List.pairwise_cons] at h
    obtain ⟨hx, hxs⟩ := h
    by_cases h1 : a ≤ f x ∧ f x < b
    · have hc : (decide (a ≤ f x) && decide (f x < c)) = true := by simp; omega
      have hl : (decide (a ≤ f x) && decide (f x < b)) = true := by simp; omega
      have hr : ¬ (decide (b ≤ f x) && decide (f x < c)) = true := by simp; omega
      simp only [List.filter_cons]
      rw [if_pos hc, if_pos hl, if_neg hr, ih hxs, List.cons_append]
    · have hl : ¬ (decide (a ≤ f x) && decide (f x < b)) = true := by simp; omega
      by_cases h2 : b ≤ f x ∧ f x < c
      · have hc : (decide (a ≤ f x) && decide (f x < c)) = true := by simp; omega
        have hr : (decide (b ≤ f x) && decide (f x < c)) = true := by simp; omega
        have hnone : (xs.filter fun x => a ≤ f x && f x < b) = [] := by
          rw [List.filter_eq_nil_iff]
          intro y hy
          have := hx y hy
          simp only [Bool.and_eq_true, decide_eq_true_eq, not_and, Nat.not_lt]
          omega
        simp only [List.filter_cons]
        rw [if_pos hc, if_neg hl, if_pos hr, ih hxs, hnone, List.nil_append, List.nil_append]
      · have hc : ¬ (decide (a ≤ f x) && decide (f x < c)) = true := by simp; omega
        have hr : ¬ (decide (b ≤ f x) && decide (f x < c)) = true := by simp; omega
        simp only [List.filter_cons]
        rw [if_neg hc, if_neg hl, if_neg hr, ih hxs]

theorem placed_pairwise (offset : Nat) (ls : List Lexeme) :
    (placed offset ls).Pairwise fun e f => e.1 ≤ f.1 := by
  induction ls generalizing offset with
  | nil => exact List.Pairwise.nil
  | cons l ls ih =>
    refine List.pairwise_cons.mpr ⟨?_, ih _⟩
    rintro ⟨p, m⟩ hm
    have := (placed_bounds hm).1
    simp only
    omega

/-- Of two lexemes the one that starts first stops before the other starts. -/
theorem placed_disjoint {offset p q : Nat} {l m : Lexeme} {ls : List Lexeme}
    (hl : (p, l) ∈ placed offset ls) (hm : (q, m) ∈ placed offset ls) (hpq : p < q) :
    p + byteLength l.text ≤ q := by
  induction ls generalizing offset with
  | nil => simp at hl
  | cons k ls ih =>
    rcases List.mem_cons.mp hl with hl | hl
    · obtain ⟨rfl, rfl⟩ := Prod.mk.inj hl
      rcases List.mem_cons.mp hm with hm | hm
      · obtain ⟨rfl, -⟩ := Prod.mk.inj hm
        omega
      · exact (placed_bounds hm).1
    · rcases List.mem_cons.mp hm with hm | hm
      · obtain ⟨rfl, -⟩ := Prod.mk.inj hm
        have := (placed_bounds hl).1
        omega
      · exact ih hl hm

theorem stretch_append (text : List Char) {a b c : Nat} (hab : a ≤ b) (hbc : b ≤ c) :
    stretch text a c = stretch text a b ++ stretch text b c :=
  filter_part (fun e : Nat × Lexeme => e.1) (placed_pairwise 0 (lexemes text)) hab hbc

theorem filter_placed {offset a b : Nat} {ls : List Lexeme}
    (hne : ∀ l ∈ ls, l.text ≠ []) (ha : a ≤ offset) (hb : offset + byteLength (lexemesText ls) ≤ b) :
    ((placed offset ls).filter fun e => a ≤ e.1 && e.1 < b) = placed offset ls := by
  rw [List.filter_eq_self]
  rintro ⟨p, l⟩ hl
  obtain ⟨h1, h2⟩ := placed_bounds hl
  obtain ⟨before, after, rfl, -⟩ := mem_placed hl
  have := byteLength_pos (hne l (by simp))
  simp only [Bool.and_eq_true, decide_eq_true_eq]
  omega

theorem filter_placed_nil (ls : List Lexeme) {offset a b : Nat}
    (hne : ∀ l ∈ ls, l.text ≠ []) (h : b ≤ offset ∨ offset + byteLength (lexemesText ls) ≤ a) :
    ((placed offset ls).filter fun e => a ≤ e.1 && e.1 < b) = [] := by
  rw [List.filter_eq_nil_iff]
  rintro ⟨p, l⟩ hl
  obtain ⟨h1, h2⟩ := placed_bounds hl
  obtain ⟨before, after, rfl, -⟩ := mem_placed hl
  have := byteLength_pos (hne l (by simp))
  simp only [Bool.and_eq_true, decide_eq_true_eq]
  omega

/-- The lexemes between two cuts. -/
theorem stretch_eq {text : List Char} {before between : List Lexeme} (after : List Lexeme)
    (h : lexemes text = before ++ between ++ after) :
    stretch text (byteLength (lexemesText before)) (byteLength (lexemesText (before ++ between))) =
      placed (byteLength (lexemesText before)) between := by
  have hne : ∀ l ∈ before ++ between ++ after, l.text ≠ [] := fun l hl =>
    text_ne_nil_of_mem (by rw [h]; exact hl)
  have hsum : byteLength (lexemesText (before ++ between)) =
      byteLength (lexemesText before) + byteLength (lexemesText between) := by
    rw [lexemesText_append, byteLength_append]
  rw [stretch, h, placed_append, placed_append, List.filter_append, List.filter_append,
    filter_placed_nil before (fun l hl => hne l (by simp [hl])) (.inr (by omega)),
    filter_placed_nil after (fun l hl => hne l (by simp [hl])) (.inl (by omega)),
    filter_placed (fun l hl => hne l (by simp [hl])) (by omega) (by omega)]
  simp

theorem slice_part {text x y z : List Char} (h : text = x ++ (y ++ z)) {a b : Nat} (ha : a = byteLength x)
    (hb : b = byteLength x + byteLength y) : slice text ⟨a, b⟩ = y := by
  subst h ha hb
  rw [slice, Span.length, Nat.add_sub_cancel_left, dropBytes_byteLength, takeBytes_byteLength]

/-- The text between two cuts. -/
theorem slice_eq {text : List Char} {before between : List Lexeme} (after : List Lexeme)
    (h : lexemes text = before ++ between ++ after) :
    slice text ⟨byteLength (lexemesText before), byteLength (lexemesText (before ++ between))⟩ =
      lexemesText between := by
  have htext := lexemesText_lexemes text
  rw [h, List.append_assoc, lexemesText_append, lexemesText_append] at htext
  exact slice_part htext.symm rfl (by rw [lexemesText_append, byteLength_append])

/-- Two cuts part the lexemes in three. -/
theorem exists_parts {ls : List Lexeme} {a b : Nat} (hne : ∀ l ∈ ls, l.text ≠ []) (ha : IsCut ls a)
    (hb : IsCut ls b) (hab : a ≤ b) :
    ∃ before between after, ls = before ++ between ++ after ∧
      a = byteLength (lexemesText before) ∧ b = byteLength (lexemesText (before ++ between)) := by
  obtain ⟨l1, r1, h1, rfl⟩ := ha
  obtain ⟨l2, r2, h2, rfl⟩ := hb
  rcases List.append_eq_append_iff.mp (h1.symm.trans h2) with ⟨between, rfl, rfl⟩ | ⟨rest, rfl, rfl⟩
  · exact ⟨l1, between, r2, by rw [h1, List.append_assoc], rfl, rfl⟩
  · have hnil : rest = [] := by
      cases rest with
      | nil => rfl
      | cons m rest =>
        have := byteLength_pos (hne m (by rw [h1]; simp))
        simp only [lexemesText_append, lexemesText_cons, byteLength_append] at hab
        omega
    subst hnil
    exact ⟨l2, [], r1, by simpa using h1, by simp, by simp⟩

/-! ## Tokens that stand for characters -/

/-- A token lexeme gives the token at its place. -/
theorem token_of_lexeme (pending : Bool) {offset p : Nat} {kind : TokenKind} {cs : List Char}
    {ls : List Lexeme} (h : (p, ⟨.token kind, cs⟩) ∈ placed offset ls) :
    ⟨kind, p, cs⟩ ∈ tokensFrom offset pending ls := by
  induction ls generalizing offset pending with
  | nil => simp at h
  | cons l ls ih =>
    rw [tokensFrom_cons, List.mem_append]
    rcases List.mem_cons.mp h with h | h
    · obtain ⟨rfl, rfl⟩ := Prod.mk.inj h
      exact .inl (by simp [lexemeTokens])
    · exact .inr (ih _ h)

/-- A token with characters comes from the lexeme at its place. -/
theorem lexeme_of_token {offset : Nat} {pending : Bool} {t : Token} {ls : List Lexeme}
    (h : t ∈ tokensFrom offset pending ls) (hne : t.text ≠ []) :
    ∃ kind, (t.start, ⟨kind, t.text⟩) ∈ placed offset ls ∧
      (kind = .token t.kind ∨ kind = .openComment ∧ t.kind = .invalid) := by
  induction ls generalizing offset pending with
  | nil =>
    cases pending <;> simp [tokensFrom] at h
    rw [h] at hne
    exact absurd rfl hne
  | cons l ls ih =>
    rw [tokensFrom_cons, List.mem_append] at h
    rcases h with h | h
    · obtain ⟨kind, text⟩ := l
      refine ⟨kind, ?_⟩
      cases kind <;> simp only [lexemeTokens] at h
      case newline | blockComment =>
        cases pending <;> cases hn : newlineAt offset text <;> simp [hn] at h
        rw [h] at hne
        exact absurd rfl hne
      case openComment | token =>
        rw [List.mem_singleton] at h
        subst h
        simp
      all_goals simp at h
    · obtain ⟨kind, hmem, hk⟩ := ih h
      exact ⟨kind, List.mem_cons_of_mem _ hmem, hk⟩

/-- A newline stands for a semicolon only after a token that can end a statement. -/
theorem tokensFrom_implied (offset : Nat) (pending : Bool) {ls : List Lexeme}
    (hne : ∀ l ∈ ls, l.text ≠ []) :
    (∀ u ∈ (tokensFrom offset pending ls).head?, u.text = [] → pending = true) ∧
    ∀ i t u, (tokensFrom offset pending ls)[i]? = some t →
      (tokensFrom offset pending ls)[i + 1]? = some u → u.text = [] → t.kind.endsStatement := by
  induction ls generalizing offset pending with
  | nil => cases pending <;> simp [tokensFrom]
  | cons l ls ih =>
    obtain ⟨ih1, ih2⟩ := ih (offset + byteLength l.text) (lexemeTokens offset pending l).2
      fun m hm => hne m (by simp [hm])
    have hl := hne l (by simp)
    rw [tokensFrom_cons]
    have hcases : ((lexemeTokens offset pending l).1 = [] ∧
          ((lexemeTokens offset pending l).2 = true → pending = true)) ∨
        ∃ t, (lexemeTokens offset pending l).1 = [t] ∧ (t.text = [] → pending = true) ∧
          ((lexemeTokens offset pending l).2 = true → t.kind.endsStatement) := by
      obtain ⟨kind, text⟩ := l
      cases kind <;> simp only [lexemeTokens]
      case newline | blockComment =>
        cases pending <;> cases newlineAt offset text <;> simp
      all_goals simp_all
    rcases hcases with ⟨h1, h2⟩ | ⟨t, h1, h2, h3⟩
    · rw [h1, List.nil_append]
      exact ⟨fun u hu hnil => h2 (ih1 u hu hnil), ih2⟩
    · rw [h1, List.singleton_append]
      refine ⟨fun u hu => ?_, fun i a u ha hu hnil => ?_⟩
      · simp only [List.head?_cons, Option.mem_def, Option.some.injEq] at hu
        subst hu
        exact h2
      · cases i with
        | zero =>
          simp only [List.getElem?_cons_zero, Option.some.injEq] at ha
          subst ha
          simp only [List.getElem?_cons_succ] at hu
          exact h3 (ih1 u (by rw [Option.mem_def, List.head?_eq_getElem?]; exact hu) hnil)
        | succ i => exact ih2 i a u ha hu hnil

end LiteralFill
