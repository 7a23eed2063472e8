import LiteralFill.Proofs.Balance
import LiteralFill.Proofs.Printed.Lexemes
import LiteralFill.Syntax.TypeReader

/-!
The words of a displayed type: its tokens without their places. Its text consists of them and of blanks, and at its
end a statement may end. Their brackets are balanced, and what the first of them is depends on the form of the type.
-/

namespace LiteralFill

/-! ## Words -/

/-- What a token is and how it is written. -/
abbrev Word := TokenKind × String

/-- The word that a lexeme is. -/
def Lexeme.word? (l : Lexeme) : Option Word :=
  match l.kind with
  | .token kind => some (kind, String.ofList l.text)
  | _ => none

/-- The words among lexemes. -/
def words (ls : List Lexeme) : List Word := ls.filterMap Lexeme.word?

@[simp] theorem words_nil : words [] = [] := rfl

@[simp] theorem words_append (ls ms : List Lexeme) : words (ls ++ ms) = words ls ++ words ms :=
  List.filterMap_append

@[simp] theorem words_number (cs : List Char) (ls : List Lexeme) :
    words (⟨.token .number, cs⟩ :: ls) = (.number, String.ofList cs) :: words ls := rfl

@[simp] theorem words_token (kind : TokenKind) (text : String) (ls : List Lexeme) :
    words (tokenLexeme kind text :: ls) = (kind, text) :: words ls := by
  simp [words, Lexeme.word?, tokenLexeme]

@[simp] theorem words_keyword (word : Keyword) (ls : List Lexeme) :
    words (keywordLexeme word :: ls) = (.keyword word, word.text) :: words ls := words_token _ _ ls

@[simp] theorem words_space (ls : List Lexeme) : words (spaceLexeme :: ls) = words ls := rfl

namespace Lexed

/-- The words of a text from a token on. -/
def wordsFrom (s : Lexed) (i : Nat) : List Word := (s.tokens.toList.drop i).map fun t => (t.kind, t.name)

variable {s : Lexed} {i : Nat}

theorem kindsFrom_eq_map (s : Lexed) (i : Nat) : s.kindsFrom i = (s.wordsFrom i).map (·.1) := by
  simp [kindsFrom, wordsFrom, Function.comp_def]

theorem kindAt_eq_head (s : Lexed) (i : Nat) : s.kindAt i = (s.wordsFrom i).head?.map (·.1) := by
  simp [kindAt, wordsFrom, List.head?_drop, Function.comp_def]

theorem nameAt_eq_head (s : Lexed) (i : Nat) : s.nameAt i = ((s.wordsFrom i).head?.map (·.2)).getD "" := by
  simp [nameAt, wordsFrom, List.head?_drop, Function.comp_def]

theorem length_wordsFrom (s : Lexed) : (s.wordsFrom 0).length = s.size := by
  simp [wordsFrom, size]

theorem wordsFrom_append (us : List Word) {ws : List Word} (h : s.wordsFrom i = us ++ ws) :
    s.wordsFrom (i + us.length) = ws := by
  have hdrop : s.wordsFrom (i + us.length) = (s.wordsFrom i).drop us.length := by
    simp only [wordsFrom, ← List.map_drop, List.drop_drop]
  rw [hdrop, h, List.drop_left]

theorem wordsFrom_cons {w : Word} {ws : List Word} (h : s.wordsFrom i = w :: ws) :
    s.kindAt i = some w.1 ∧ s.nameAt i = w.2 ∧ s.wordsFrom (i + 1) = ws := by
  refine ⟨?_, ?_, ?_⟩
  · rw [kindAt_eq_head, h]
    rfl
  · rw [nameAt_eq_head, h]
    rfl
  · exact wordsFrom_append [w] h

end Lexed

/-! ## Tokens and blanks -/

/-- Lexemes of which each is a token or a blank. -/
def ArePlain (ls : List Lexeme) : Prop := ∀ l ∈ ls, l.isToken ∨ l.kind = .blank

@[simp] theorem arePlain_nil : ArePlain [] := nofun

@[simp] theorem arePlain_append (ls ms : List Lexeme) : ArePlain (ls ++ ms) ↔ ArePlain ls ∧ ArePlain ms :=
  List.forall_mem_append

@[simp] theorem arePlain_number (cs : List Char) (ls : List Lexeme) :
    ArePlain (⟨.token .number, cs⟩ :: ls) ↔ ArePlain ls := by
  simp [ArePlain, Lexeme.isToken]

@[simp] theorem arePlain_token (kind : TokenKind) (text : String) (ls : List Lexeme) :
    ArePlain (tokenLexeme kind text :: ls) ↔ ArePlain ls := by
  simp [ArePlain, tokenLexeme, Lexeme.isToken]

@[simp] theorem arePlain_keyword (word : Keyword) (ls : List Lexeme) :
    ArePlain (keywordLexeme word :: ls) ↔ ArePlain ls := arePlain_token _ _ ls

@[simp] theorem arePlain_space (ls : List Lexeme) : ArePlain (spaceLexeme :: ls) ↔ ArePlain ls := by
  simp [ArePlain, spaceLexeme]

/-- The tokens of tokens and blanks are their words. -/
theorem ArePlain.words_eq {ls : List Lexeme} (h : ArePlain ls) (offset : Nat) (pending : Bool) :
    (tokensWithin offset pending ls).1.map (fun t => (t.kind, t.name)) = words ls := by
  induction ls generalizing offset pending with
  | nil => rfl
  | cons l ls ih =>
    have hl := h l (by simp)
    have hrest := ih fun m hm => h m (by simp [hm])
    obtain ⟨kind, text⟩ := l
    rw [tokensWithin_cons, List.map_append, hrest]
    rcases hl with hl | hl
    · cases kind with
      | token k => rfl
      | _ => cases hl
    · obtain rfl : kind = .blank := hl
      rfl

/-- Lexemes after which the end of the text ends a statement. -/
def EndStatement (ls : List Lexeme) : Prop := ∀ offset pending, (tokensWithin offset pending ls).2

namespace EndStatement

theorem token {kind : TokenKind} (h : kind.endsStatement) (text : String) : EndStatement [tokenLexeme kind text] :=
  fun _ _ => h

theorem append (ls : List Lexeme) {ms : List Lexeme} (h : EndStatement ms) : EndStatement (ls ++ ms) := by
  intro offset pending
  rw [tokensWithin_append]
  exact h _ _

theorem cons (l : Lexeme) {ls : List Lexeme} (h : EndStatement ls) : EndStatement (l :: ls) := append [l] h

end EndStatement

/-- A text of tokens and blanks has its words and the semicolon at its end. -/
theorem Lexed.wordsFrom_ofText {ls : List Lexeme} (hcut : lexemes (lexemesText ls) = ls) (hplain : ArePlain ls)
    (hends : EndStatement ls) :
    let s := (Lexed.ofText (lexemesText ls)).1
    s.wordsFrom 0 = words ls ++ [(.semicolon, "")] ∧
      s.tokens.toList.drop (words ls).length = [.impliedSemicolon (byteLength (lexemesText ls))] := by
  intro s
  have htokens : s.tokens.toList =
      (tokensWithin 0 false ls).1 ++ [.impliedSemicolon (byteLength (lexemesText ls))] := by
    show (tokensFrom 0 false (lexemes (lexemesText ls))).toArray.toList = _
    rw [hcut, tokensFrom_eq, if_pos (hends 0 false), Nat.zero_add]
  have hwords := hplain.words_eq 0 false
  constructor
  · rw [wordsFrom, List.drop_zero, htokens, List.map_append, hwords]
    rfl
  · rw [htokens, ← hwords, List.length_map, List.drop_left]

/-! ## Brackets -/

open TypeExpr (argLexemes moreLexemes bodyLexemes fieldLexemes moreFieldLexemes)

/-- Words with balanced brackets. -/
def AreBalanced (ws : List Word) : Prop := IsBalanced (ws.map (·.1))

namespace AreBalanced

variable {us ws : List Word}

theorem nil : AreBalanced [] := .none

theorem cons {w : Word} (hw : w.1.isBracket = false) (h : AreBalanced ws) : AreBalanced (w :: ws) := .single hw h

theorem append (h : AreBalanced us) (h' : AreBalanced ws) : AreBalanced (us ++ ws) := by
  rw [AreBalanced, List.map_append]
  exact IsBalanced.append h h'

theorem group {b : Bracket} {opening closing : String} (h : AreBalanced us) (h' : AreBalanced ws) :
    AreBalanced ((.opener b, opening) :: (us ++ (.closer b, closing) :: ws)) := by
  rw [AreBalanced, List.map_cons, List.map_append]
  exact .group h h'

end AreBalanced

/-- The closing bracket behind balanced words belongs to the opening one before them. -/
theorem Lexed.IsMatched.closerOf_words {s : Lexed} (hm : s.IsMatched) {i : Nat} {b : Bracket}
    {opening closing : String} {us ws : List Word} (hu : AreBalanced us)
    (hw : s.wordsFrom i = (.opener b, opening) :: (us ++ (.closer b, closing) :: ws)) :
    s.closerOf i = some (i + 1 + us.length) := by
  have hkinds : s.kindsFrom i = .opener b :: (us.map (·.1) ++ .closer b :: ws.map (·.1)) := by
    rw [Lexed.kindsFrom_eq_map, hw]
    simp
  rw [hm.closerOf_balanced hu hkinds, List.length_map]

theorem literalKind_cases (tag : String) : literalKind tag = .string ∨ literalKind tag = .rawString := by
  rw [literalKind]
  split
  · exact .inr rfl
  · exact .inl rfl

theorem areBalanced_more {args : List TypeExpr} (h : ∀ a ∈ args, AreBalanced (words a.lexemes)) :
    AreBalanced (words (moreLexemes args)) := by
  induction args with
  | nil => exact .nil
  | cons a args ih =>
    have hmore := ih fun b hb => h b (by simp [hb])
    simpa [moreLexemes] using AreBalanced.cons (w := (.comma, ",")) rfl ((h a (by simp)).append hmore)

theorem areBalanced_field {f : FieldDecl TypeExpr} (hhead : f.IsHeaded) (h : AreBalanced (words f.type.lexemes)) :
    AreBalanced (words (fieldLexemes f)) := by
  obtain ⟨names, t, tag, span⟩ := f
  have htag : AreBalanced (words (tagLexemes tag)) := by
    cases tag with
    | none => exact .nil
    | some text =>
      have hliteral : (literalKind text).isBracket = false := by
        rcases literalKind_cases text with h | h <;> rw [h] <;> rfl
      simpa [tagLexemes] using AreBalanced.cons (w := (literalKind text, text)) hliteral .nil
  cases hhead with
  | @named name h' =>
    obtain rfl : names = [name] := h'
    simpa [fieldLexemes, fieldNameLexemes] using AreBalanced.cons (w := (.ident, name)) rfl (h.append htag)
  | embedded h' | pointer h' =>
    obtain rfl : names = [] := h'
    simpa [fieldLexemes, fieldNameLexemes] using h.append htag

theorem areBalanced_moreFields {fields : List (FieldDecl TypeExpr)}
    (h : ∀ f ∈ fields, AreBalanced (words (fieldLexemes f))) : AreBalanced (words (moreFieldLexemes fields)) := by
  induction fields with
  | nil => exact .nil
  | cons f fields ih =>
    have hmore := ih fun g hg => h g (by simp [hg])
    simpa [moreFieldLexemes] using AreBalanced.cons (w := (.semicolon, ";")) rfl ((h f (by simp)).append hmore)

theorem areBalanced_body {fields : List (FieldDecl TypeExpr)}
    (h : ∀ f ∈ fields, AreBalanced (words (fieldLexemes f))) : AreBalanced (words (bodyLexemes fields)) := by
  cases fields with
  | nil => exact .nil
  | cons f fields =>
    have hmore := areBalanced_moreFields fun g (hg : g ∈ fields) => h g (by simp [hg])
    simpa [bodyLexemes] using (h f (by simp)).append hmore

/-- The brackets of a printable type are balanced. -/
theorem TypeExpr.IsPrintable.areBalanced {e : TypeExpr} (h : e.IsPrintable) : AreBalanced (words e.lexemes) := by
  induction h with
  | @name package name args hpackage hname hargs ih =>
    have hend : AreBalanced (words (argLexemes args)) := by
      cases args with
      | nil => exact .nil
      | cons a args =>
        have hmore := areBalanced_more fun b (hb : b ∈ args) => ih b (by simp [hb])
        simpa [argLexemes] using ((ih a (by simp)).append hmore).group (b := .square) .nil
    have hstart : AreBalanced (words (nameLexemes package name)) := by
      cases package with
      | none => simpa [nameLexemes] using AreBalanced.cons (w := (.ident, name)) rfl .nil
      | some p =>
        have hdot : AreBalanced [(.dot, "."), (.ident, name)] := .cons rfl (.cons rfl .nil)
        simpa [nameLexemes] using hdot.cons (w := (.ident, p)) rfl
    simpa [TypeExpr.lexemes] using hstart.append hend
  | pointer ht ih => simpa [TypeExpr.lexemes] using ih.cons (w := (.star, "*")) rfl
  | slice ht ih => simpa [TypeExpr.lexemes] using AreBalanced.nil.group (b := .square) ih
  | @array n t hn ht ih =>
    have hnumber : AreBalanced [(.number, String.ofList (Nat.toDigits 10 n))] := .cons rfl .nil
    simpa [TypeExpr.lexemes, WrittenLength.lexemes] using hnumber.group (b := .square) ih
  | map hk hv ihk ihv =>
    simpa [TypeExpr.lexemes] using (ihk.group (b := .square) ihv).cons (w := (.keyword .mapWord, _)) rfl
  | @chan d t ht ih =>
    have hstart : AreBalanced (words d.lexemes) := by
      cases d with
      | both => exact .cons rfl .nil
      | send | receive => exact .cons rfl (.cons rfl .nil)
    simpa [TypeExpr.lexemes] using hstart.append ih
  | @struct fields hheads htypes htags hspans ih =>
    have hbody := areBalanced_body fun f (hf : f ∈ fields) => areBalanced_field (hheads f hf) (ih f hf)
    simpa [TypeExpr.lexemes] using (hbody.group (b := .brace) .nil).cons (w := (.keyword .structWord, _)) rfl

/-! ## The lexemes of printable types -/

theorem arePlain_more {args : List TypeExpr} (h : ∀ a ∈ args, ArePlain a.lexemes) : ArePlain (moreLexemes args) := by
  induction args with
  | nil => simp [moreLexemes]
  | cons a args ih =>
    have hmore := ih fun b hb => h b (by simp [hb])
    simp [moreLexemes, h a (by simp), hmore]

theorem arePlain_names (names : List String) : ArePlain (fieldNameLexemes names) := by
  induction names using fieldNameLexemes.induct with
  | case1 => simp [fieldNameLexemes]
  | case2 name => simp [fieldNameLexemes]
  | case3 name rest hrest ih =>
    rw [fieldNameLexemes]
    · simp [ih]
    · exact hrest

theorem arePlain_field {f : FieldDecl TypeExpr} (h : ArePlain f.type.lexemes) : ArePlain (fieldLexemes f) := by
  obtain ⟨names, t, tag, span⟩ := f
  have htag : ArePlain (tagLexemes tag) := by
    cases tag <;> simp [tagLexemes]
  simp only [fieldLexemes, arePlain_append]
  exact ⟨arePlain_names names, h, htag⟩

theorem arePlain_moreFields {fields : List (FieldDecl TypeExpr)} (h : ∀ f ∈ fields, ArePlain f.type.lexemes) :
    ArePlain (moreFieldLexemes fields) := by
  induction fields with
  | nil => simp [moreFieldLexemes]
  | cons f fields ih =>
    have hmore := ih fun g hg => h g (by simp [hg])
    simp [moreFieldLexemes, arePlain_field (h f (by simp)), hmore]

/-- A printable type consists of tokens and blanks. -/
theorem TypeExpr.IsPrintable.arePlain {e : TypeExpr} (h : e.IsPrintable) : ArePlain e.lexemes := by
  induction h with
  | @name package name args hpackage hname hargs ih =>
    have hend : ArePlain (argLexemes args) := by
      cases args with
      | nil => simp [argLexemes]
      | cons a args => simp [argLexemes, ih a (by simp), arePlain_more fun b (hb : b ∈ args) => ih b (by simp [hb])]
    cases package <;> simp [TypeExpr.lexemes, nameLexemes, hend]
  | pointer ht ih | slice ht ih => simp [TypeExpr.lexemes, ih]
  | array hn ht ih => simp [TypeExpr.lexemes, WrittenLength.lexemes, ih]
  | map hk hv ihk ihv => simp [TypeExpr.lexemes, ihk, ihv]
  | @chan d t ht ih => cases d <;> simp [TypeExpr.lexemes, Direction.lexemes, ih]
  | @struct fields hheads htypes htags hspans ih =>
    have hbody : ArePlain (bodyLexemes fields) := by
      cases fields with
      | nil => simp [bodyLexemes]
      | cons f fields =>
        simp [bodyLexemes, arePlain_field (ih f (by simp)),
          arePlain_moreFields fun g (hg : g ∈ fields) => ih g (by simp [hg])]
    simp [TypeExpr.lexemes, hbody]

/-- A statement may end where a printable type ends: behind a name or a bracket. -/
theorem TypeExpr.IsPrintable.endStatement {e : TypeExpr} (h : e.IsPrintable) : EndStatement e.lexemes := by
  induction h with
  | @name package name args hpackage hname hargs ih =>
    rw [TypeExpr.lexemes]
    cases args with
    | nil =>
      rw [argLexemes, List.append_nil]
      have hident : EndStatement [tokenLexeme .ident name] := .token rfl name
      cases package with
      | none => exact hident
      | some p => exact (hident.cons _).cons _
    | cons a more =>
      have hclose : EndStatement [tokenLexeme (.closer .square) "]"] := .token rfl _
      rw [argLexemes]
      exact (((hclose.append _).append _).cons _).append _
  | pointer ht ih => exact ih.cons _
  | slice ht ih => exact (ih.cons _).cons _
  | array hn ht ih => exact ((ih.cons _).append _).cons _
  | map hk hv ihk ihv => exact (((ihv.cons _).append _).cons _).cons _
  | chan ht ih => exact ih.append _
  | struct hheads htypes htags hspans ih =>
    have hclose : EndStatement [tokenLexeme (.closer .brace) "\x7d"] := .token rfl _
    exact ((hclose.append _).cons _).cons _

/-! ## Numbers of words -/

theorem length_le_more (args : List TypeExpr) : args.length ≤ (words (moreLexemes args)).length := by
  induction args with
  | nil => exact Nat.zero_le _
  | cons a args ih =>
    simp only [moreLexemes, words_token, words_space, words_append, List.length_cons, List.length_append]
    omega

theorem length_le_moreFields (fields : List (FieldDecl TypeExpr)) :
    fields.length ≤ (words (moreFieldLexemes fields)).length := by
  induction fields with
  | nil => exact Nat.zero_le _
  | cons f fields ih =>
    simp only [moreFieldLexemes, words_token, words_space, words_append, List.length_cons, List.length_append]
    omega

theorem length_more_of_mem {args : List TypeExpr} {a : TypeExpr} (h : a ∈ args) :
    (words a.lexemes).length < (words (moreLexemes args)).length := by
  induction args with
  | nil => cases h
  | cons b args ih =>
    simp only [moreLexemes, words_token, words_space, words_append, List.length_cons, List.length_append]
    rcases List.mem_cons.mp h with rfl | h
    · omega
    · have := ih h
      omega

theorem length_moreFields_of_mem {fields : List (FieldDecl TypeExpr)} {f : FieldDecl TypeExpr} (h : f ∈ fields) :
    (words (fieldLexemes f)).length < (words (moreFieldLexemes fields)).length := by
  induction fields with
  | nil => cases h
  | cons g fields ih =>
    simp only [moreFieldLexemes, words_token, words_space, words_append, List.length_cons, List.length_append]
    rcases List.mem_cons.mp h with rfl | h
    · omega
    · have := ih h
      omega

/-- An argument has fewer words than the type it is an argument of. -/
theorem length_arg {package : Option String} {name : String} {args : List TypeExpr} {a : TypeExpr} (h : a ∈ args) :
    (words a.lexemes).length < (words (TypeExpr.name package name args).lexemes).length := by
  cases args with
  | nil => cases h
  | cons b args =>
    simp only [TypeExpr.lexemes, argLexemes, words_append, words_token, List.length_cons, List.length_append]
    rcases List.mem_cons.mp h with rfl | h
    · omega
    · have := length_more_of_mem h
      omega

/-- The type of a field has fewer words than the struct type. -/
theorem length_fieldType {fields : List (FieldDecl TypeExpr)} {f : FieldDecl TypeExpr} (h : f ∈ fields) :
    (words f.type.lexemes).length < (words (TypeExpr.struct fields).lexemes).length := by
  have hfield : (words f.type.lexemes).length ≤ (words (fieldLexemes f)).length := by
    obtain ⟨names, t, tag, span⟩ := f
    simp only [fieldLexemes, words_append, List.length_append]
    omega
  cases fields with
  | nil => cases h
  | cons g fields =>
    simp only [TypeExpr.lexemes, bodyLexemes, words_append, words_token, words_keyword, words_space, List.length_cons,
      List.length_append]
    rcases List.mem_cons.mp h with rfl | h
    · omega
    · have := length_moreFields_of_mem h
      omega

/-! ## First words -/

/-- What the first word of a type is. -/
def TypeExpr.firstKind : TypeExpr → TokenKind
  | .name .. => .ident
  | .pointer _ => .star
  | .slice _ | .array .. => .opener .square
  | .map .. => .keyword .mapWord
  | .chan .receive _ => .arrow
  | .chan .. => .keyword .chanWord
  | .func _ => .keyword .funcWord
  | .struct _ => .keyword .structWord
  | .interface _ => .keyword .interfaceWord

theorem TypeExpr.firstKind_of_isName {e : TypeExpr} (h : e.isName) : e.firstKind = .ident := by
  cases e with
  | name => rfl
  | _ => cases h

theorem TypeExpr.IsPrintable.words_eq {e : TypeExpr} (h : e.IsPrintable) :
    ∃ text ws, words e.lexemes = (e.firstKind, text) :: ws := by
  cases h with
  | @name package name args => cases package <;> simp [TypeExpr.lexemes, nameLexemes, firstKind]
  | @chan d t => cases d <;> simp [TypeExpr.lexemes, Direction.lexemes, firstKind]
  | _ => simp [TypeExpr.lexemes, firstKind]

theorem TypeExpr.beginsResult_firstKind (e : TypeExpr) : beginsResult e.firstKind := by
  cases e with
  | chan d t => cases d <;> rfl
  | _ => rfl

section

variable {e : TypeExpr} (h : e.IsPrintable) {s : Lexed} {i : Nat} {rest : List Word}
  (hw : s.wordsFrom i = words e.lexemes ++ rest)

include h

theorem TypeExpr.IsPrintable.words_pos : 0 < (words e.lexemes).length := by
  obtain ⟨text, ws, hfirst⟩ := h.words_eq
  simp [hfirst]

include hw

theorem TypeExpr.IsPrintable.kindAt_eq : s.kindAt i = some e.firstKind := by
  obtain ⟨text, ws, hfirst⟩ := h.words_eq
  rw [hfirst] at hw
  exact (Lexed.wordsFrom_cons hw).1

/-- What begins no type is not the first word of one. -/
theorem TypeExpr.IsPrintable.kindAt_ne {k : TokenKind} (hk : beginsResult k = false) : s.kindAt i ≠ some k := by
  rw [h.kindAt_eq hw]
  intro he
  rw [← Option.some.inj he, e.beginsResult_firstKind] at hk
  cases hk

end

end LiteralFill
