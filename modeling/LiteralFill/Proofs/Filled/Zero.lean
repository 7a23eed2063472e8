import LiteralFill.Proofs.Filled.Rows
import LiteralFill.Proofs.Filled.TypeText

/-!
The texts of zero values. The zero value of a type that can be written is a text that stands for itself, on one
line or, when its fields are written out, on several.
-/

namespace LiteralFill

/-! ## Texts that stand for values -/

/-- A text from a token to a token that stands for itself as a value. -/
def IsTermText (text : List Char) : Prop :=
  ∃ ks, IsPart text ks ∧ IsValue ks ∧ ks.getLast? ≠ some .semicolon

namespace IsTermText

variable {a b : List Char}

theorem isValueText (h : IsTermText a) : IsValueText a := by
  obtain ⟨ks, hpart, hvalue, hlast⟩ := h
  exact hpart.isValueText hvalue hlast

theorem inner (h : IsTermText a) : IsInner a := by
  obtain ⟨ks, hpart, hvalue, -⟩ := h
  exact ⟨ks, hpart, hvalue.balanced⟩

theorem of_identifier {name : List Char} (h : IsIdentifier name) : IsTermText name :=
  ⟨_, h.isPart, .single rfl (by simp) .none, by simp⟩

/-- A type with a pair of braces that holds balanced tokens. -/
theorem literal {ks : List TokenKind} (h : IsTypeText a) (hb : IsPart b (.opener .brace :: (ks ++ [.closer .brace])))
    (hks : IsBalanced ks) (hsep : Separated b) : IsTermText (a ++ b) := by
  obtain ⟨ls, hpart, hvalue⟩ := h.part
  refine ⟨_, hpart.append hb hsep, hvalue.append (.brackets .brace hks), ?_⟩
  rw [← List.cons_append, ← List.append_assoc, List.getLast?_concat]
  exact nofun

theorem empty_literal (h : IsTypeText a) : IsTermText (a ++ ['\x7b', '\x7d']) := by
  have hclose : IsPart ['\x7d'] [.closer .brace] := .single rfl rfl
  have hbraces : IsPart ['\x7b', '\x7d'] (.opener .brace :: ([] ++ [.closer .brace])) := .cons rfl rfl rfl hclose
  exact literal h hbraces .none (by rintro d ⟨⟩; decide)

theorem braces (h : IsTypeText a) (hb : IsInner b) : IsTermText (a ++ '\x7b' :: (b ++ ['\x7d'])) := by
  obtain ⟨ks, hpart, hbalanced⟩ := hb
  exact literal h (hpart.inBrackets .brace) hbalanced (by rintro d ⟨⟩; decide)

end IsTermText

/-- A text of one lexeme is a part. -/
theorem IsPart.of_lexeme {text : List Char} {k : TokenKind} (h : lexemes text = [⟨.token k, text⟩])
    (hsound : Lexeme.isSound ⟨.token k, text⟩) : IsPart text [k] := by
  refine ⟨?_, ⟨_, _, h, rfl⟩, ?_, ?_⟩
  · simpa [h] using hsound
  · simp [h, Lexeme.isToken]
  · simp [kindsWithin, h, tokensWithin_cons, lexemeTokens]

theorem Primitive.isTermText_zero (p : Primitive) : IsTermText p.zero.toList := by
  have hword : ∀ {name : List Char}, IsIdentifier name → IsTermText name := fun h => .of_identifier h
  have hnumber : ∀ {text : List Char}, lexemes text = [⟨.token .number, text⟩] → IsTermText text := fun h =>
    ⟨_, IsPart.of_lexeme h rfl, .single rfl (by simp) .none, by simp⟩
  have hfloat : IsTermText "0.0".toList := hnumber rfl
  have hcomplex : IsTermText "(0 + 0i)".toList := by
    have hzero : IsPart ['0'] [.number] := .of_lexeme rfl rfl
    have hplus : IsPart ['+'] [.operator] := .of_lexeme rfl rfl
    have himaginary : IsPart ['0', 'i'] [.number] := .of_lexeme rfl rfl
    have hsum := (hzero.space hplus).space himaginary
    exact ⟨_, hsum.inBrackets .paren, .brackets .paren (.single rfl (.single rfl (.single rfl .none))), by simp⟩
  cases p with
  | bool => exact hword ⟨⟨_, _, rfl, rfl, List.all_eq_true.mp rfl⟩, rfl⟩
  | pointer => exact hword ⟨⟨_, _, rfl, rfl, List.all_eq_true.mp rfl⟩, rfl⟩
  | string => exact ⟨_, IsPart.of_lexeme (k := .string) rfl rfl, .single rfl (by simp) .none, by simp⟩
  | float32 => exact hfloat
  | float64 => exact hfloat
  | complex64 => exact hcomplex
  | complex128 => exact hcomplex
  | _ => exact hnumber rfl

theorem isTermText_nil : IsTermText "nil".toList :=
  .of_identifier ⟨⟨_, _, rfl, rfl, List.all_eq_true.mp rfl⟩, rfl⟩

/-- A fresh value of a type parameter. -/
theorem isTermText_new {name : List Char} (h : IsIdentifier name) :
    IsTermText ("*new(".toList ++ (name ++ [')'])) := by
  have hnew : IsIdentifier ['n', 'e', 'w'] := ⟨⟨_, _, rfl, rfl, List.all_eq_true.mp rfl⟩, rfl⟩
  have hcall : IsPart (['n', 'e', 'w'] ++ '(' :: (name ++ [')'])) _ :=
    hnew.isPart.append (h.isPart.inBrackets .paren) (by rintro d ⟨⟩; decide)
  have hstar := hcall.cons (c := '*') (k := .star) rfl (lexemeAt_star (by rintro c ⟨⟩; decide)) rfl
  refine ⟨_, hstar, ?_, by simp⟩
  exact .single rfl (by simp) (.single rfl (by simp) (.brackets .paren (.single rfl .none)))

/-! ## Zero values -/

/-- The texts of a zero value stand for themselves. -/
inductive ZeroExpr.IsWritten : ZeroExpr → Prop
  | text {t : String} (h : IsTermText t.toList) : IsWritten (.text t)
  | composite {type : String} {fields : List (String × ZeroExpr)} (htype : IsTypeText type.toList)
      (hnames : ∀ f ∈ fields, IsIdentifier f.1.toList) (hvalues : ∀ f ∈ fields, IsWritten f.2) :
      IsWritten (.composite type fields)

theorem isTermText_emptyLiteral {type : String} (h : IsTypeText type.toList) :
    IsTermText (emptyLiteral type).toList := by
  have := IsTermText.empty_literal h
  simpa [emptyLiteral] using this

theorem ZeroExpr.IsWritten.oneLine {e : ZeroExpr} (h : e.IsWritten) : IsTermText e.oneLine.toList := by
  cases h with
  | text h => exact h
  | composite htype => exact isTermText_emptyLiteral htype

/-- The same element several times. -/
theorem isInner_replicate {text : String} (h : IsInner text.toList) (n : Nat) :
    IsInner (", ".intercalate (List.replicate (n + 1) text)).toList := by
  induction n with
  | zero => simpa using h
  | succ n ih =>
    rw [List.replicate_succ, List.replicate_succ, String.intercalate_cons_cons, ← List.replicate_succ]
    simpa using h.comma ih

theorem isTermText_arrayLiteral (z : Synthesizer) {type element : String} (htype : IsTypeText type.toList)
    (l : Length) (helement : IsInner element.toList) : IsTermText (z.arrayLiteral type l element).toList := by
  unfold Synthesizer.arrayLiteral
  split
  · next n hn =>
    have hpos : 0 < n := by
      unfold Synthesizer.lists at hn
      split at hn
      · split at hn
        · next h =>
          cases hn
          simp only [Bool.and_eq_true, decide_eq_true_eq] at h
          exact h.1
        · cases hn
      · cases hn
    obtain ⟨m, rfl⟩ : ∃ m, n = m + 1 := ⟨n - 1, by omega⟩
    have := IsTermText.braces htype (isInner_replicate helement m)
    simpa using this
  · exact isTermText_emptyLiteral htype

namespace Synthesizer

variable (z : Synthesizer)

/-- The fields of a zero value are written if the values of all of them are. -/
theorem isWritten_zeroFields {recurse : Bool} {visiting : List TypeName} {samePackage : Bool} {fields : List (Field Ty)}
    (hnames : ∀ f ∈ fields, IsIdentifier f.name.toList)
    (hvalues : ∀ f ∈ fields, (z.zero recurse visiting none f.type).1.IsWritten) :
    ∀ v ∈ (z.zeroFields recurse visiting samePackage fields).1, IsIdentifier v.1.toList ∧ v.2.IsWritten := by
  induction fields with
  | nil => simp [zeroFields]
  | cons f fields ih =>
    have hrest := ih (fun g hg => hnames g (by simp [hg])) fun g hg => hvalues g (by simp [hg])
    obtain ⟨name, t, embedded, tag⟩ := f
    rw [zeroFields]
    dsimp only
    by_cases hset : isExported name || samePackage
    · rw [if_pos hset]
      intro v hv
      rcases List.mem_cons.mp hv with rfl | hv
      · exact ⟨hnames ⟨name, t, embedded, tag⟩ (by simp), hvalues ⟨name, t, embedded, tag⟩ (by simp)⟩
      · exact hrest v hv
    · rw [if_neg hset]
      exact hrest

/-- The zero value of a type that can be written. -/
theorem isWritten_zero {t : Ty} (h : t.IsWritten z.qualifier) (recurse : Bool) (visiting : List TypeName)
    {outer : Option (TypeName × String)} (houter : ∀ o ∈ outer, IsTypeText o.2.toList) :
    (z.zero recurse visiting outer t).1.IsWritten := by
  have hshown := h.isTypeText
  induction h generalizing recurse visiting outer with
  | primitive => exact .text (Primitive.isTermText_zero _)
  | @named n args t hn hargs ht _ iht =>
    cases outer with
    | some o => exact iht recurse visiting houter ht.isTypeText
    | none =>
      rw [zero]
      dsimp only
      split
      · exact .text (isTermText_emptyLiteral hshown)
      · exact iht recurse visiting (by rintro _ ⟨⟩; exact hshown) ht.isTypeText
  | unseen => exact .text (isTermText_emptyLiteral hshown)
  | @array l t hl ht iht =>
    have hnone : ∀ o ∈ (none : Option (TypeName × String)), IsTypeText o.2.toList := by simp
    have helement := (iht false visiting hnone ht.isTypeText).oneLine.inner
    cases outer with
    | some o =>
      rw [zero]
      dsimp only
      split
      · exact .text (isTermText_arrayLiteral z (houter o rfl) l helement)
      · exact .text (isTermText_emptyLiteral (houter o rfl))
    | none =>
      rw [zero]
      dsimp only
      split
      · exact .text (isTermText_arrayLiteral z hshown l helement)
      · exact .text (isTermText_emptyLiteral hshown)
  | @struct fields hnames htypes htags ih =>
    cases outer with
    | none => exact .text (isTermText_emptyLiteral hshown)
    | some o =>
      obtain ⟨n, shown⟩ := o
      have htype := houter _ rfl
      rw [zero]
      split
      · have hfields : ∀ v ∈ (z.zeroFields recurse (n :: visiting) (n.path == z.packagePath) fields).1,
            IsIdentifier v.1.toList ∧ v.2.IsWritten :=
          isWritten_zeroFields z hnames fun f hf =>
            ih f hf recurse (n :: visiting) (by simp) (htypes f hf).isTypeText
        split
        · exact .text (isTermText_emptyLiteral htype)
        · next values names heq hvalues =>
          rw [hvalues] at hfields
          exact .composite htype (fun v hv => (hfields v hv).1) fun v hv => (hfields v hv).2
      · exact .text (isTermText_emptyLiteral htype)
  | param h => exact .text (by simpa using isTermText_new h)
  | _ => exact .text isTermText_nil

theorem isWritten_synthesize {t : Ty} (h : t.IsWritten z.qualifier) : (z.synthesize t).1.IsWritten :=
  isWritten_zero z h z.recurse [] (by simp)

end Synthesizer

/-! ## Zero values on several lines -/

theorem zeroRows_eq (unit : String) (align : Bool) (indent : String) (fields : List (String × ZeroExpr)) :
    zeroRows unit align indent fields =
      fields.map fun (name, value) => ⟨[], name, renderZero unit align indent value, none⟩ := by
  induction fields with
  | nil => rfl
  | cons f fields ih => rw [zeroRows, ih, List.map_cons]

/-- Lines in braces. -/
theorem isPart_lines {ls : List Line} (hls : ∀ l ∈ ls, l.IsSound) {closing : List Char}
    (hclosing : ∀ c ∈ closing, isLineBlank c) : ∃ ks, IsBalanced ks ∧
      IsPart ('\x7b' :: (Line.texts ls ++ '\n' :: (closing ++ ['\x7d']))) (.opener .brace :: (ks ++ [.closer .brace])) := by
  have hnotes : IsGapText ('\n' :: noteLines closing [] closing) IsUnblank [] :=
    isGapText_noteLines hclosing hclosing (by simp)
  have hgap : IsGapText ('\n' :: closing) IsUnblank [] := hnotes
  obtain ⟨w, hw, hsound, hbalanced, -⟩ := lexemes_lines hls hgap []
  rw [lexemes_nil] at hw
  have hlexemes : lexemes ('\x7b' :: (Line.texts ls ++ '\n' :: (closing ++ ['\x7d']))) =
      openBrace :: (w ++ [closeBrace]) := by
    rw [lexemes_fixed rfl, hw]
    rfl
  refine ⟨_, hbalanced, ?_, ⟨_, _, hlexemes, rfl⟩, ?_, ?_⟩
  · rw [hlexemes]
    intro l hl
    rcases List.mem_cons.mp hl with rfl | hl
    · rfl
    · rcases List.mem_append.mp hl with hl | hl
      · exact hsound l hl
      · rw [List.mem_singleton.mp hl]
        rfl
  · rw [hlexemes, ← List.cons_append, List.getLast?_concat]
    rintro l ⟨⟩
    rfl
  · rw [kindsWithin, hlexemes, tokensWithin_cons, tokensWithin_append]
    simp only [lexemeTokens, openBrace, closeBrace, tokensWithin_cons, List.map_append, List.map_cons, List.cons_append,
      List.nil_append, TokenKind.endsStatement]
    rw [kinds_tokensWithin_lexemes _ 0]
    rfl

/-- A zero value is written as a text that stands for itself. -/
theorem ZeroExpr.IsWritten.isTermText {e : ZeroExpr} (h : e.IsWritten) {unit indent : String}
    (hunit : ∀ c ∈ unit.toList, isLineBlank c) (hindent : ∀ c ∈ indent.toList, isLineBlank c) (align : Bool) :
    IsTermText (renderZero unit align indent e).toList := by
  induction h generalizing indent with
  | text h => exact h
  | @composite type fields htype hnames hvalues ih =>
    have hinner : ∀ c ∈ (indent ++ unit).toList, isLineBlank c := by
      simpa [or_imp, forall_and] using ⟨hindent, hunit⟩
    have hrows : ∀ r ∈ zeroRows unit align (indent ++ unit) fields, r.IsSound := by
      rw [zeroRows_eq]
      intro r hr
      obtain ⟨f, hf, rfl⟩ := List.mem_map.mp hr
      exact ⟨hnames f hf, (ih f hf hinner).isValueText, by simp, by simp⟩
    obtain ⟨ls, hls, -, htext⟩ := exists_lines hrows hinner align
    obtain ⟨ks, hks, hpart⟩ := isPart_lines hls hindent
    have hliteral := IsTermText.literal htype hpart hks (by rintro d ⟨⟩; decide)
    rw [List.append_cons (Line.texts ls), ← htext] at hliteral
    simpa [renderZero] using hliteral

end LiteralFill
