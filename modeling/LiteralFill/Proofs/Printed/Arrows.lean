import LiteralFill.Proofs.Printed.Fields

/-!
Which types are read as the types that they were written for: those in which no receiving channel is the element of
a channel in both directions. Of the others the arrow changes its keyword and nothing is lost: a type is known from
what it is read as and where its blanks stand.
-/

namespace LiteralFill

open TypeExpr (argLexemes moreLexemes bodyLexemes fieldLexemes moreFieldLexemes)

namespace TypeExpr

/-! ## Types that are read as they were meant -/

mutual

/-- No type that begins with an arrow stands behind the bare keyword of a channel type. -/
def arrowsApart : TypeExpr → Bool
  | .name _ _ args => arrowsApartAll args
  | .pointer t | .slice t | .array _ t => arrowsApart t
  | .map k v => arrowsApart k && arrowsApart v
  | .chan d t => !(d == .both && t.firstKind == .arrow) && arrowsApart t
  | .struct fields => arrowsApartFields fields
  | .func _ | .interface _ => true

def arrowsApartAll : List TypeExpr → Bool
  | [] => true
  | t :: ts => arrowsApart t && arrowsApartAll ts

def arrowsApartField : FieldDecl TypeExpr → Bool
  | ⟨_, t, _, _⟩ => arrowsApart t

def arrowsApartFields : List (FieldDecl TypeExpr) → Bool
  | [] => true
  | f :: rest => arrowsApartField f && arrowsApartFields rest

end

/-- A channel in both directions is read as one if the arrow of its element does not take its keyword. -/
theorem reading_both_eq_iff {t : TypeExpr} (h : t.reading = t ↔ t.arrowsApart) :
    (chan .both t).reading = chan .both t ↔ (chan .both t).arrowsApart := by
  simp only [reading, arrowsApart, BEq.rfl, Bool.true_and, Bool.and_eq_true, Bool.not_eq_true', beq_eq_false_iff_ne]
  by_cases harrow : t.firstKind = .arrow
  · obtain ⟨u, rfl⟩ := eq_receive_of_firstKind harrow
    simp [reading, chanOf, harrow]
  · rw [chanOf_of_ne (reading_ne_receive harrow), chan.injEq, h]
    simp [harrow]

mutual

/-- A type is read as itself exactly if its arrows stand apart. -/
theorem reading_eq_iff : ∀ e : TypeExpr, e.reading = e ↔ e.arrowsApart
  | .name p n args => by simp [reading, arrowsApart, readingAll_eq_iff args]
  | .pointer t => by simp [reading, arrowsApart, reading_eq_iff t]
  | .slice t => by simp [reading, arrowsApart, reading_eq_iff t]
  | .array l t => by simp [reading, arrowsApart, reading_eq_iff t]
  | .map k v => by simp [reading, arrowsApart, reading_eq_iff k, reading_eq_iff v]
  | .chan .both t => reading_both_eq_iff (reading_eq_iff t)
  | .chan .send t => by simp [reading, arrowsApart, reading_eq_iff t]
  | .chan .receive t => by simp [reading, arrowsApart, reading_eq_iff t]
  | .func text => by simp [reading, arrowsApart]
  | .struct fields => by simp [reading, arrowsApart, readingFields_eq_iff fields]
  | .interface text => by simp [reading, arrowsApart]

theorem readingAll_eq_iff : ∀ ts : List TypeExpr, readingAll ts = ts ↔ arrowsApartAll ts
  | [] => by simp [readingAll, arrowsApartAll]
  | t :: ts => by simp [readingAll, arrowsApartAll, reading_eq_iff t, readingAll_eq_iff ts]

theorem readingField_eq_iff : ∀ f : FieldDecl TypeExpr, readingField f = f ↔ arrowsApartField f
  | ⟨names, t, tag, span⟩ => by simp [readingField, arrowsApartField, reading_eq_iff t]

theorem readingFields_eq_iff : ∀ fs : List (FieldDecl TypeExpr), readingFields fs = fs ↔ arrowsApartFields fs
  | [] => by simp [readingFields, arrowsApartFields]
  | f :: rest => by simp [readingFields, arrowsApartFields, readingField_eq_iff f, readingFields_eq_iff rest]

end

/-! ## Lengths -/

theorem length_chanOf (t : TypeExpr) : (chanOf t).lexemes.length = t.lexemes.length + 2 := by
  induction t using chanOf.induct with
  | case1 t ih => simp [chanOf, lexemes, Direction.lexemes, ih]
  | case2 t h =>
    rw [chanOf_of_ne h]
    simp [lexemes, Direction.lexemes]

mutual

/-- What is read has as many lexemes. -/
theorem length_reading : ∀ e : TypeExpr, e.reading.lexemes.length = e.lexemes.length
  | .name p n args => by simp [reading, lexemes, length_readingArgs args]
  | .pointer t => by simp [reading, lexemes, length_reading t]
  | .slice t => by simp [reading, lexemes, length_reading t]
  | .array l t => by simp [reading, lexemes, length_reading t]
  | .map k v => by simp [reading, lexemes, length_reading k, length_reading v]
  | .chan .both t => by
    rw [reading, length_chanOf, length_reading t]
    simp [lexemes, Direction.lexemes]
  | .chan .send t => by simp [reading, lexemes, length_reading t]
  | .chan .receive t => by simp [reading, lexemes, length_reading t]
  | .func text => by rw [reading]
  | .struct fields => by simp [reading, lexemes, length_readingBody fields]
  | .interface text => by rw [reading]

theorem length_readingArgs : ∀ ts : List TypeExpr, (argLexemes (readingAll ts)).length = (argLexemes ts).length
  | [] => by rw [readingAll]
  | t :: ts => by simp [readingAll, argLexemes, length_reading t, length_readingMore ts]

theorem length_readingMore : ∀ ts : List TypeExpr, (moreLexemes (readingAll ts)).length = (moreLexemes ts).length
  | [] => by rw [readingAll]
  | t :: ts => by simp [readingAll, moreLexemes, length_reading t, length_readingMore ts]

theorem length_readingField : ∀ f : FieldDecl TypeExpr,
    (fieldLexemes (readingField f)).length = (fieldLexemes f).length
  | ⟨names, t, tag, span⟩ => by simp [readingField, fieldLexemes, length_reading t]

theorem length_readingBody : ∀ fs : List (FieldDecl TypeExpr),
    (bodyLexemes (readingFields fs)).length = (bodyLexemes fs).length
  | [] => by rw [readingFields]
  | f :: rest => by simp [readingFields, bodyLexemes, length_readingField f, length_readingMoreFields rest]

theorem length_readingMoreFields : ∀ fs : List (FieldDecl TypeExpr),
    (moreFieldLexemes (readingFields fs)).length = (moreFieldLexemes fs).length
  | [] => by rw [readingFields]
  | f :: rest => by simp [readingFields, moreFieldLexemes, length_readingField f, length_readingMoreFields rest]

end

theorem length_eq_of_reading {e e' : TypeExpr} (h : e.reading = e'.reading) :
    e.lexemes.length = e'.lexemes.length := by
  rw [← length_reading e, h, length_reading e']

theorem length_eq_of_readingField {f g : FieldDecl TypeExpr} (h : readingField f = readingField g) :
    (fieldLexemes f).length = (fieldLexemes g).length := by
  rw [← length_readingField f, h, length_readingField g]

/-! ## No two types with one text -/

theorem chanOf_injective {t u : TypeExpr} (h : chanOf t = chanOf u) : t = u := by
  induction t using chanOf.induct generalizing u with
  | case1 t ih =>
    by_cases hu : ∃ v, u = .chan .receive v
    · obtain ⟨v, rfl⟩ := hu
      rw [chanOf, chanOf, chan.injEq] at h
      rw [ih h.2]
    · rw [chanOf, chanOf_of_ne (not_exists.mp hu)] at h
      cases h
  | case2 t ht =>
    rw [chanOf_of_ne ht] at h
    by_cases hu : ∃ v, u = .chan .receive v
    · obtain ⟨v, rfl⟩ := hu
      rw [chanOf] at h
      cases h
    · rw [chanOf_of_ne (not_exists.mp hu)] at h
      exact (chan.inj h).2

/-- A channel type of any direction. -/
def isChan : TypeExpr → Bool
  | .chan .. => true
  | _ => false

theorem isChan_chanOf (t : TypeExpr) : (chanOf t).isChan = true := by
  by_cases h : ∃ u, t = .chan .receive u
  · obtain ⟨u, rfl⟩ := h
    rfl
  · rw [chanOf_of_ne (not_exists.mp h)]
    rfl

theorem isChan_reading (e : TypeExpr) : e.reading.isChan = e.isChan := by
  cases e with
  | chan d t =>
    cases d with
    | both => exact isChan_chanOf t.reading
    | send | receive => rfl
  | _ => rfl

/-- Only channel types are read as what a channel type is read as. -/
theorem isChan_of_reading {e t : TypeExpr} {d : Direction} (h : e.reading = (chan d t).reading) : e.isChan := by
  rw [← isChan_reading, h, isChan_reading, isChan]

/-- The lexemes before the element say what kind of channel it is. -/
theorem chan_lexemes_inj {d d' : Direction} {t t' : TypeExpr}
    (h : (chan d t).lexemes = (chan d' t').lexemes) : d = d' ∧ t.lexemes = t'.lexemes := by
  cases d <;> cases d' <;> simp [lexemes, Direction.lexemes, keywordLexeme, tokenLexeme, spaceLexeme] at h
  all_goals exact ⟨rfl, h⟩

/-- The element of a channel is known from what the channel is read as. -/
theorem reading_elem {d : Direction} {t t' : TypeExpr} (h : (chan d t).reading = (chan d t').reading) :
    t.reading = t'.reading := by
  cases d with
  | both => exact chanOf_injective h
  | send | receive =>
    rw [reading, reading] at h
    exact (chan.inj h).2

mutual

/-- A type is known from its lexemes and what they are read as. -/
theorem eq_of_reading : ∀ {e e' : TypeExpr}, e.reading = e'.reading → e.lexemes = e'.lexemes → e = e'
  | .name p n args, e', h, hl => by
    cases e' with
    | name p' n' args' =>
      obtain ⟨rfl, rfl, hargs⟩ := name.inj h
      rw [lexemes, lexemes] at hl
      rw [eq_of_readingArgs hargs (List.append_cancel_left hl)]
    | chan d t => cases isChan_of_reading h
    | _ => cases h
  | .pointer t, e', h, hl => by
    cases e' with
    | pointer t' =>
      rw [lexemes, lexemes] at hl
      rw [eq_of_reading (pointer.inj h) (List.cons.inj hl).2]
    | chan d t => cases isChan_of_reading h
    | _ => cases h
  | .slice t, e', h, hl => by
    cases e' with
    | slice t' =>
      rw [lexemes, lexemes] at hl
      rw [eq_of_reading (slice.inj h) (List.cons.inj (List.cons.inj hl).2).2]
    | chan d t => cases isChan_of_reading h
    | _ => cases h
  | .array l t, e', h, hl => by
    cases e' with
    | array l' t' =>
      obtain ⟨rfl, ht⟩ := array.inj h
      rw [lexemes, lexemes] at hl
      rw [eq_of_reading ht (List.cons.inj (List.append_cancel_left (List.cons.inj hl).2)).2]
    | chan d t => cases isChan_of_reading h
    | _ => cases h
  | .map k v, e', h, hl => by
    cases e' with
    | map k' v' =>
      obtain ⟨hk, hv⟩ := map.inj h
      rw [lexemes, lexemes] at hl
      obtain ⟨hlk, hlv⟩ := List.append_inj (List.cons.inj (List.cons.inj hl).2).2 (length_eq_of_reading hk)
      rw [eq_of_reading hk hlk, eq_of_reading hv (List.cons.inj hlv).2]
    | chan d t => cases isChan_of_reading h
    | _ => cases h
  | .chan d t, e', h, hl => by
    cases e' with
    | chan d' t' =>
      obtain ⟨rfl, hlt⟩ := chan_lexemes_inj hl
      rw [eq_of_reading (reading_elem h) hlt]
    | _ => cases isChan_of_reading h.symm
  | .struct fields, e', h, hl => by
    cases e' with
    | struct fields' =>
      rw [lexemes, lexemes] at hl
      rw [eq_of_readingBody (struct.inj h) (List.append_cancel_right (List.cons.inj (List.cons.inj hl).2).2)]
    | chan d t => cases isChan_of_reading h
    | _ => cases h
  | .func text, e', h, _ => by
    cases e' with
    | func text' => exact h
    | chan d t => cases isChan_of_reading h
    | _ => cases h
  | .interface text, e', h, _ => by
    cases e' with
    | interface text' => exact h
    | chan d t => cases isChan_of_reading h
    | _ => cases h

theorem eq_of_readingArgs : ∀ {ts us : List TypeExpr}, readingAll ts = readingAll us →
    argLexemes ts = argLexemes us → ts = us
  | [], [], _, _ => rfl
  | t :: ts, u :: us, h, hl => by
    obtain ⟨ht, hts⟩ := List.cons.inj h
    rw [argLexemes, argLexemes] at hl
    obtain ⟨hlt, hlts⟩ := List.append_inj (List.cons.inj hl).2 (length_eq_of_reading ht)
    rw [eq_of_reading ht hlt, eq_of_readingMore hts (List.append_cancel_right hlts)]

theorem eq_of_readingMore : ∀ {ts us : List TypeExpr}, readingAll ts = readingAll us →
    moreLexemes ts = moreLexemes us → ts = us
  | [], [], _, _ => rfl
  | t :: ts, u :: us, h, hl => by
    obtain ⟨ht, hts⟩ := List.cons.inj h
    rw [moreLexemes, moreLexemes] at hl
    obtain ⟨hlt, hlts⟩ := List.append_inj (List.cons.inj (List.cons.inj hl).2).2 (length_eq_of_reading ht)
    rw [eq_of_reading ht hlt, eq_of_readingMore hts hlts]

theorem eq_of_readingField : ∀ {f g : FieldDecl TypeExpr}, readingField f = readingField g →
    fieldLexemes f = fieldLexemes g → f = g
  | ⟨names, t, tag, span⟩, ⟨names', t', tag', span'⟩, h, hl => by
    obtain ⟨rfl, ht, rfl, rfl⟩ := FieldDecl.mk.inj h
    rw [fieldLexemes, fieldLexemes] at hl
    rw [eq_of_reading ht (List.append_cancel_right (List.append_cancel_left hl))]

theorem eq_of_readingBody : ∀ {fs gs : List (FieldDecl TypeExpr)}, readingFields fs = readingFields gs →
    bodyLexemes fs = bodyLexemes gs → fs = gs
  | [], [], _, _ => rfl
  | f :: fs, g :: gs, h, hl => by
    obtain ⟨hf, hfs⟩ := List.cons.inj h
    rw [bodyLexemes, bodyLexemes] at hl
    obtain ⟨hlf, hlfs⟩ := List.append_inj (List.cons.inj hl).2 (length_eq_of_readingField hf)
    rw [eq_of_readingField hf hlf, eq_of_readingMoreFields hfs (List.append_cancel_right hlfs)]

theorem eq_of_readingMoreFields : ∀ {fs gs : List (FieldDecl TypeExpr)}, readingFields fs = readingFields gs →
    moreFieldLexemes fs = moreFieldLexemes gs → fs = gs
  | [], [], _, _ => rfl
  | f :: fs, g :: gs, h, hl => by
    obtain ⟨hf, hfs⟩ := List.cons.inj h
    rw [moreFieldLexemes, moreFieldLexemes] at hl
    obtain ⟨hlf, hlfs⟩ := List.append_inj (List.cons.inj (List.cons.inj hl).2).2 (length_eq_of_readingField hf)
    rw [eq_of_readingField hf hlf, eq_of_readingMoreFields hfs hlfs]

end

end TypeExpr

end LiteralFill
