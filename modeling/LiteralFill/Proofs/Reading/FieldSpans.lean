import LiteralFill.Proofs.Reading.Loops

/-!
The places of fields. Whatever a type is read from, each field of it, and of the types inside it, stands on tokens
that the type was read from.
-/

namespace LiteralFill

open Reader

/-! ## Fields of a type -/

/-- The lines of a struct type. -/
def TypeExpr.decls : TypeExpr → List (FieldDecl TypeExpr)
  | .struct fields => fields
  | _ => []

/-- A line of the type or of a type inside it. -/
inductive TypeExpr.HasField : TypeExpr → FieldDecl TypeExpr → Prop
  | own {t : TypeExpr} {f : FieldDecl TypeExpr} (h : f ∈ t.decls) : HasField t f
  | inner {t u : TypeExpr} {f : FieldDecl TypeExpr} (hu : u ∈ t.parts) (h : HasField u f) : HasField t f

/-- The span of some tokens, the first of them `first` or behind it and all of them before `limit`. -/
def Lexed.SpansTokens (s : Lexed) (first limit : Nat) (span : Span) : Prop :=
  ∃ a b, first ≤ a ∧ a < b ∧ b ≤ limit ∧ span = ⟨s.startAt a, s.stopBefore b⟩

theorem Lexed.SpansTokens.mono {s : Lexed} {first first' limit limit' : Nat} {span : Span}
    (h : s.SpansTokens first limit span) (hfirst : first' ≤ first) (hlimit : limit ≤ limit') :
    s.SpansTokens first' limit' span := by
  obtain ⟨a, b, ha, hab, hb, he⟩ := h
  exact ⟨a, b, Nat.le_trans hfirst ha, hab, Nat.le_trans hb hlimit, he⟩

/-- All fields of a type stand on the tokens from `first` up to `limit`. -/
def FieldsIn (s : Lexed) (first limit : Nat) (t : TypeExpr) : Prop :=
  ∀ f, t.HasField f → s.SpansTokens first limit f.span

namespace FieldsIn

variable {s : Lexed} {first limit : Nat} {t : TypeExpr}

theorem mono {first' limit' : Nat} (h : FieldsIn s first limit t) (hfirst : first' ≤ first) (hlimit : limit ≤ limit') :
    FieldsIn s first' limit' t := fun f hf => (h f hf).mono hfirst hlimit

theorem of_parts (hdecls : ∀ f ∈ t.decls, s.SpansTokens first limit f.span)
    (hparts : ∀ u ∈ t.parts, FieldsIn s first limit u) : FieldsIn s first limit t := by
  intro f hf
  cases hf with
  | own h => exact hdecls f h
  | inner hu h => exact hparts _ hu f h

/-- A type around one other. -/
theorem around {u : TypeExpr} (h : FieldsIn s first limit u) (hdecls : t.decls = []) (hparts : t.parts = [u]) :
    FieldsIn s first limit t :=
  of_parts (by simp [hdecls]) (by simpa [hparts] using h)

/-- A type kept as text. -/
theorem of_text (hdecls : t.decls = []) (hparts : t.parts = []) : FieldsIn s first limit t :=
  of_parts (by simp [hdecls]) (by simp [hparts])

end FieldsIn

/-! ## Reading -/

/-- What the reader reads as a type has its fields on the tokens it passes. -/
def ReadsFields (s : Lexed) (inner : Reader TypeExpr) : Prop :=
  ∀ c t d, inner c = (some t, d) → FieldsIn s c.index d.index t

section

variable {s : Lexed} (hm : s.IsMatched) {inner : Reader TypeExpr} (hin : ReadsTypes s inner)
  (hfields : ReadsFields s inner)
include hin hfields

omit hin in
/-- What a type is wrapped in has no fields of its own. -/
theorem wrap_fields {f : TypeExpr → TypeExpr} (hdecls : ∀ u, (f u).decls = []) (hparts : ∀ u, (f u).parts = [u])
    {i : Nat} {c d : Cursor} {t : TypeExpr} (hi : i ≤ c.index)
    (h : (inner >>= fun u => give (f u)) c = (some t, d)) : FieldsIn s i d.index t := by
  rw [bind_apply] at h
  rcases hread : inner c with ⟨result, e⟩
  rw [hread] at h
  cases result with
  | none => cases h
  | some u =>
    cases h
    exact ((hfields c u d hread).mono hi (Nat.le_refl _)).around (hdecls u) (hparts u)

theorem readArgs_fields {close fuel : Nat} {args args' : List TypeExpr} {c d : Cursor}
    (h : readArgs s inner close fuel args c = (some args', d)) :
    c.index ≤ d.index ∧ ∀ t ∈ args', t ∈ args ∨ FieldsIn s c.index d.index t := by
  induction fuel generalizing args c with
  | zero => cases h
  | succ fuel ih =>
    rw [readArgs, bind_apply] at h
    rcases hread : inner c with ⟨result, e⟩
    rw [hread] at h
    cases result with
    | none => cases h
    | some arg =>
      have hlt := hin.lt hread
      have harg := hfields c arg e hread
      have hmore : ∀ {k : Nat}, e.index ≤ k → ∀ t ∈ args ++ [arg], t ∈ args ∨ FieldsIn s c.index k t := by
        intro k hk t ht
        rcases List.mem_append.mp ht with ht | ht
        · exact .inl ht
        · rw [List.mem_singleton.mp ht]
          exact .inr (harg.mono (Nat.le_refl _) hk)
      simp only [eat_bind] at h
      split at h
      · obtain ⟨hle, hall⟩ := ih h
        simp only at hle
        refine ⟨by omega, fun t ht => ?_⟩
        rcases hall t ht with hold | hnew
        · exact hmore (by omega) t hold
        · exact .inr (hnew.mono (by simp only; omega) (Nat.le_refl _))
      · simp only [Bool.false_eq_true, ↓reduceIte, index_bind] at h
        split at h
        · cases h
          exact ⟨by simp only; omega, hmore (Nat.le_succ _)⟩
        · cases h

/-- Types without arguments have none with fields. -/
theorem readTypeArgs_fields {c d : Cursor} {args : List TypeExpr} (h : readTypeArgs s inner c = (some args, d)) :
    ∀ t ∈ args, FieldsIn s c.index d.index t := by
  rw [readTypeArgs, index_bind] at h
  split at h
  · cases hclose : s.closerOf c.index with
    | none =>
      rw [hclose] at h
      cases h
      simp
    | some close =>
      simp only [hclose, skip_bind, optional_bind] at h
      rcases hread : readArgs s inner close (close - c.index) [] ⟨c.index + 1, c.diagnostics⟩ with ⟨result, e⟩
      rw [hread] at h
      cases result with
      | none =>
        cases h
        simp
      | some found =>
        cases h
        intro t ht
        rcases (readArgs_fields hin hfields hread).2 t ht with hnil | hnew
        · cases hnil
        · exact hnew.mono (Nat.le_succ _) (Nat.le_refl _)
  · cases h
    simp

theorem readNamed_fields {c d : Cursor} {t : TypeExpr} (h : readNamed s inner c = (some t, d)) :
    FieldsIn s c.index d.index t := by
  have hargs : ∀ {e : Cursor} {q : Option String} {n : String}, c.index ≤ e.index →
      (readTypeArgs s inner >>= fun args => give (.name q n args)) e = (some t, d) → FieldsIn s c.index d.index t := by
    intro e q n hle hread
    rw [bind_apply] at hread
    rcases hfound : readTypeArgs s inner e with ⟨result, e'⟩
    rw [hfound] at hread
    cases result with
    | none => cases hread
    | some args =>
      cases hread
      exact .of_parts (by simp [TypeExpr.decls]) fun u hu =>
        (readTypeArgs_fields hin hfields hfound u hu).mono hle (Nat.le_refl _)
  rw [readNamed, index_bind] at h
  split at h
  · exact hargs (e := ⟨c.index + 3, c.diagnostics⟩) (by simp only; omega) h
  · exact hargs (e := ⟨c.index + 1, c.diagnostics⟩) (by simp only; omega) h

omit hin

theorem readSequence_fields (hm : s.IsMatched) {c d : Cursor} {t : TypeExpr}
    (h : readSequence s inner c = (some t, d)) : FieldsIn s c.index d.index t := by
  rw [readSequence, index_bind] at h
  split at h
  · exact wrap_fields hfields (f := .slice) (fun _ => rfl) (fun _ => rfl) (c := ⟨c.index + 2, c.diagnostics⟩)
      (by simp only; omega) h
  · cases hclose : s.closerOf c.index with
    | none =>
      rw [hclose] at h
      cases h
    | some close =>
      have hlt := (hm.closer_spec hclose).1
      rw [hclose, require_some_bind] at h
      cases hlength : readLength s c.index close with
      | none =>
        rw [hlength] at h
        cases h
      | some length =>
        rw [hlength, require_some_bind, goTo_bind] at h
        exact wrap_fields hfields (f := .array length) (fun _ => rfl) (fun _ => rfl)
          (c := ⟨close + 1, c.diagnostics⟩) (by simp only; omega) h

theorem readChan_fields {c d : Cursor} {t : TypeExpr} (h : readChan s inner c = (some t, d)) :
    FieldsIn s c.index d.index t := by
  rw [readChan, skip_bind, eat_bind] at h
  split at h
  · exact wrap_fields hfields (f := .chan .send) (fun _ => rfl) (fun _ => rfl)
      (c := ⟨c.index + 1 + 1, c.diagnostics⟩) (by simp only; omega) h
  · exact wrap_fields hfields (f := .chan .both) (fun _ => rfl) (fun _ => rfl)
      (c := ⟨c.index + 1, c.diagnostics⟩) (by simp only; omega) h

include hin

theorem readMap_fields {c d : Cursor} {t : TypeExpr} (h : readMap s inner c = (some t, d)) :
    FieldsIn s c.index d.index t := by
  rw [readMap, skip_bind, expect_bind] at h
  split at h
  · rw [bind_apply] at h
    rcases hkey : inner ⟨c.index + 1 + 1, c.diagnostics⟩ with ⟨result, e⟩
    rw [hkey] at h
    cases result with
    | none => cases h
    | some key =>
      have hkeyFields := hfields _ key e hkey
      have hlt := hin.lt hkey
      simp only [expect_bind] at h
      split at h
      · rw [bind_apply] at h
        rcases hvalue : inner ⟨e.index + 1, e.diagnostics⟩ with ⟨result, e'⟩
        rw [hvalue] at h
        cases result with
        | none => cases h
        | some value =>
          cases h
          have hlt' := hin.lt hvalue
          simp only at hlt hlt'
          refine .of_parts (by simp [TypeExpr.decls]) fun u hu => ?_
          rcases List.mem_pair.mp hu with rfl | rfl
          · exact hkeyFields.mono (by simp only; omega) (by omega)
          · exact (hfields _ _ _ hvalue).mono (by simp only; omega) (Nat.le_refl _)
      · cases h
  · cases h

omit hin in
theorem readParenthesized_fields {c d : Cursor} {t : TypeExpr} (h : readParenthesized s inner c = (some t, d)) :
    FieldsIn s c.index d.index t := by
  rw [readParenthesized, skip_bind, bind_apply] at h
  rcases hread : inner ⟨c.index + 1, c.diagnostics⟩ with ⟨result, e⟩
  rw [hread] at h
  cases result with
  | none => cases h
  | some type =>
    simp only [expect_bind] at h
    split at h
    · cases h
      exact (hfields _ _ _ hread).mono (Nat.le_succ _) (Nat.le_succ _)
    · cases h

/-! ### Struct types -/

omit hin in
theorem readFieldHead_fields {rbrace : Nat} {c d : Cursor} {head : List String × TypeExpr}
    (h : readFieldHead s inner rbrace c = (some head, d)) : FieldsIn s c.index d.index head.2 := by
  have hinner : ∀ {e : Cursor} {f : TypeExpr → List String × TypeExpr}, c.index ≤ e.index →
      (∀ u, (f u).2 = u ∨ (f u).2 = .pointer u) → (inner >>= fun u => give (f u)) e = (some head, d) →
      FieldsIn s c.index d.index head.2 := by
    intro e f hle hf hread
    rw [bind_apply] at hread
    rcases hfound : inner e with ⟨result, e'⟩
    rw [hfound] at hread
    cases result with
    | none => cases hread
    | some u =>
      cases hread
      have hu := (hfields e u d hfound).mono hle (Nat.le_refl _)
      rcases hf u with hsame | hpointer
      · rwa [hsame]
      · rw [hpointer]
        exact hu.around rfl rfl
  rw [readFieldHead_eq] at h
  split at h
  · split at h
    · exact hinner (Nat.le_refl _) (fun _ => .inl rfl) h
    · rw [bind_apply] at h
      rcases hnames : readMoreNames s (rbrace - c.index) [s.nameAt c.index] ⟨c.index + 1, c.diagnostics⟩ with
        ⟨result, e⟩
      rw [hnames] at h
      cases result with
      | none => cases h
      | some names =>
        have hle := readMoreNames_le hnames
        exact hinner (by simp only at hle; omega) (fun _ => .inl rfl) h
  · exact hinner (e := ⟨c.index + 1, c.diagnostics⟩) (Nat.le_succ _) (fun _ => .inr rfl) h
  · cases h

variable {lbrace rbrace : Nat} (hc : s.closerOf lbrace = some rbrace)
  (hb : s.kindAt rbrace = some (.closer .brace))
include hm hc hb

/-- A field stands on the tokens of its line, and the fields inside its type on some of them. -/
theorem readField_fields {c d : Cursor} {field : FieldDecl TypeExpr} (hfirst : lbrace < c.index)
    (hlt : c.index < rbrace) (h : readField s inner rbrace c = (some (some field), d)) :
    s.SpansTokens c.index rbrace field.span ∧ FieldsIn s c.index rbrace field.type := by
  rw [readField, index_bind, optional_bind] at h
  rcases hread : readFieldHead s inner rbrace c with ⟨result, e⟩
  rw [hread] at h
  cases result with
  | none => cases h
  | some head =>
    have he := readFieldHead_le hm hin hc hb hfirst hlt hread
    have hhead := (readFieldHead_fields hfields hread).mono (Nat.le_refl _) he.2
    obtain ⟨tag, e', he'⟩ := @readTag_some s rbrace e
    have htag := readTag_le he'
    have hlast := htag.2 he.2
    have hfound : field = ⟨head.1, head.2, tag, ⟨s.startAt c.index, s.stopBefore e'.index⟩⟩ := by
      simp only [bind_some he', index_bind] at h
      split at h
      · rw [eat_bind] at h
        split at h
        · cases h
          rfl
        · cases h
          rfl
      · cases h
        rfl
    rw [hfound]
    exact ⟨⟨c.index, e'.index, Nat.le_refl _, by omega, hlast, rfl⟩, hhead⟩

theorem readFields_fields {fuel : Nat} {fields fields' : List (FieldDecl TypeExpr)} {c d : Cursor}
    (hfirst : lbrace < c.index) (hlimit : c.index ≤ rbrace)
    (h : readFields s inner rbrace fuel fields c = (some fields', d)) :
    ∀ f ∈ fields', f ∈ fields ∨ s.SpansTokens c.index rbrace f.span ∧ FieldsIn s c.index rbrace f.type := by
  induction fuel generalizing fields c with
  | zero =>
    cases h
    exact fun f hf => .inl hf
  | succ fuel ih =>
    have hlater : ∀ {k : Nat} {f : FieldDecl TypeExpr}, c.index ≤ k →
        s.SpansTokens k rbrace f.span ∧ FieldsIn s k rbrace f.type →
        s.SpansTokens c.index rbrace f.span ∧ FieldsIn s c.index rbrace f.type := fun hle hf =>
      ⟨hf.1.mono hle (Nat.le_refl _), hf.2.mono hle (Nat.le_refl _)⟩
    rw [readFields, index_bind] at h
    split at h
    · next hlt =>
      rw [eat_bind] at h
      split at h
      · intro f hf
        rcases ih (c := ⟨c.index + 1, c.diagnostics⟩) (Nat.lt_succ_of_lt hfirst) hlt h f hf with hold | hnew
        · exact .inl hold
        · exact .inr (hlater (Nat.le_succ _) hnew)
      · obtain ⟨field, e, he⟩ := @readField_some s inner rbrace c
        have hnext : c.index < e.index ∧ e.index ≤ rbrace := by
          simpa only [he] using readField_advances hm hin hc hb c hfirst hlt
        simp only [Bool.false_eq_true, ↓reduceIte, bind_some he] at h
        cases field with
        | none =>
          intro f hf
          rcases ih (by omega) hnext.2 h f hf with hold | hnew
          · exact .inl hold
          · exact .inr (hlater (by omega) hnew)
        | some field =>
          intro f hf
          rcases ih (by omega) hnext.2 h f hf with hold | hnew
          · rcases List.mem_append.mp hold with hold | hone
            · exact .inl hold
            · rw [List.mem_singleton.mp hone]
              exact .inr (readField_fields hm hin hfields hc hb hfirst hlt he)
          · exact .inr (hlater (by omega) hnew)
    · cases h
      exact fun f hf => .inl hf

omit hc hb

theorem readStruct_fields {c d : Cursor} {t : TypeExpr} (h : readStruct s inner c = (some t, d)) :
    FieldsIn s c.index d.index t := by
  rw [readStruct, index_bind, skip_bind] at h
  split at h
  · next hbrace =>
    cases hclose : s.closerOf (c.index + 1) with
    | none =>
      rw [hclose] at h
      cases h
    | some rbrace =>
      obtain ⟨hlt, -, b, hopen, hend⟩ := hm.closer_spec hclose
      rw [hbrace] at hopen
      cases hopen
      obtain ⟨fields, e, he⟩ := @readFields_some s inner rbrace (rbrace - c.index) [] ⟨c.index + 2, c.diagnostics⟩
      rw [hclose, require_some_bind, goTo_bind, bind_some he] at h
      cases h
      have hread := readFields_fields (c := ⟨c.index + 2, c.diagnostics⟩) hm hin hfields hclose hend
        (Nat.lt_succ_self _) hlt he
      have hown : ∀ f ∈ fields, s.SpansTokens (c.index + 2) rbrace f.span ∧ FieldsIn s (c.index + 2) rbrace f.type := by
        intro f hf
        rcases hread f hf with hnil | hnew
        · cases hnil
        · exact hnew
      refine .of_parts (fun f hf => (hown f hf).1.mono (Nat.le_add_right _ _) (Nat.le_succ _)) fun u hu => ?_
      obtain ⟨f, hf, rfl⟩ := List.mem_map.mp hu
      exact (hown f hf).2.mono (Nat.le_add_right _ _) (Nat.le_succ _)
  · cases h

/-! ### All forms -/

omit hm hin hfields in
theorem readFunc_text (s : Lexed) (inner : Reader TypeExpr) :
    (readFunc s inner).Yields fun t => t.decls = [] ∧ t.parts = [] := by
  refine .after fun i => .after fun _ => ?_
  split
  · exact .after fun _ => .after fun _ => .after fun j => .give ⟨rfl, by rw [TypeExpr.parts]⟩
  · exact .fail

omit hm hin hfields in
theorem readInterface_text (s : Lexed) : (readInterface s).Yields fun t => t.decls = [] ∧ t.parts = [] := by
  refine .after fun i => .after fun _ => ?_
  split
  · exact .after fun _ => .after fun j => .give ⟨rfl, by rw [TypeExpr.parts]⟩
  · exact .fail

theorem readForm_fields : ReadsFields s (readForm s inner) := by
  intro c t d h
  rw [readForm_eq] at h
  split at h
  case h_1 => exact readNamed_fields hin hfields h
  case h_2 =>
    exact wrap_fields hfields (f := .pointer) (fun _ => rfl) (fun _ => rfl) (c := ⟨c.index + 1, _⟩)
      (Nat.le_succ _) h
  case h_3 => exact readSequence_fields hfields hm h
  case h_4 => exact readMap_fields hin hfields h
  case h_5 => exact readChan_fields hfields h
  case h_6 =>
    split at h
    · exact wrap_fields hfields (f := .chan .receive) (fun _ => rfl) (fun _ => rfl) (c := ⟨c.index + 2, _⟩)
        (by simp only; omega) h
    · cases h
  case h_7 =>
    have htext := readFunc_text s inner c t (by rw [h])
    exact .of_text htext.1 htext.2
  case h_8 => exact readStruct_fields hm hin hfields h
  case h_9 =>
    have htext := readInterface_text s c t (by rw [h])
    exact .of_text htext.1 htext.2
  case h_10 => exact readParenthesized_fields hfields h
  case h_11 => cases h

omit hin hfields in
theorem readTypeWithin_fields (depth : Nat) : ReadsFields s (readTypeWithin s depth) := by
  induction depth with
  | zero => rintro c t d ⟨⟩
  | succ depth ih => exact readForm_fields hm (readTypeWithin_reads hm depth) ih

omit hin hfields in
/-- All fields of a type that is read stand on tokens that it is read from. -/
theorem readType_fields : ReadsFields s (readType s) := readTypeWithin_fields hm _

end

end LiteralFill
