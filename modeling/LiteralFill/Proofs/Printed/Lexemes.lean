import LiteralFill.Proofs.Digits
import LiteralFill.Proofs.Filled.TypeText
import LiteralFill.Proofs.Printed.Shape

/-!
A displayed type is cut into the lexemes of its shape again, whatever follows it that does not lengthen its last
word. The names have to be identifiers, the lengths numbers and the tags string literals.
-/

namespace LiteralFill

/-! ## Types that can be read again -/

/-- What may stand between double quotes: any characters of a line but a quote, and a backslash only before
another character. -/
inductive IsQuotedText : List Char → Prop
  | nil : IsQuotedText []
  | char {c : Char} {cs : List Char} (hquote : c ≠ '\x22') (hescape : c ≠ '\\') (hline : c ≠ '\n')
      (rest : IsQuotedText cs) : IsQuotedText (c :: cs)
  | escape {d : Char} {cs : List Char} (hline : d ≠ '\n') (rest : IsQuotedText cs) :
      IsQuotedText ('\\' :: d :: cs)

/-- A text in double quotes, or any text without back quotes between two of them. -/
inductive IsStringLiteral : List Char → Prop
  | quoted {body : List Char} (h : IsQuotedText body) : IsStringLiteral ('\x22' :: (body ++ ['\x22']))
  | raw {body : List Char} (h : '\x60' ∉ body) : IsStringLiteral ('\x60' :: (body ++ ['\x60']))

/-- A field of a shape has one name, or it is embedded and its type is a name or a pointer to one. -/
inductive FieldDecl.IsHeaded (f : FieldDecl TypeExpr) : Prop
  | named {name : String} (h : f.names = [name]) (hname : IsIdentifier name.toList)
  | embedded (h : f.names = []) (htype : f.type.isName)
  | pointer {t : TypeExpr} (h : f.names = []) (htype : f.type = .pointer t) (hname : t.isName)

/-- A shape without function and interface types, whose names are identifiers, whose lengths are numbers and
whose tags are string literals. -/
inductive TypeExpr.IsPrintable : TypeExpr → Prop
  | name {package : Option String} {name : String} {args : List TypeExpr}
      (hpackage : ∀ p ∈ package, IsIdentifier p.toList) (hname : IsIdentifier name.toList)
      (hargs : ∀ a ∈ args, a.IsPrintable) : IsPrintable (.name package name args)
  | pointer {t : TypeExpr} (ht : t.IsPrintable) : IsPrintable (.pointer t)
  | slice {t : TypeExpr} (ht : t.IsPrintable) : IsPrintable (.slice t)
  | array {n : Nat} {t : TypeExpr} (hn : n < wordBound) (ht : t.IsPrintable) : IsPrintable (.array (.number n) t)
  | map {k v : TypeExpr} (hk : k.IsPrintable) (hv : v.IsPrintable) : IsPrintable (.map k v)
  | chan {d : Direction} {t : TypeExpr} (ht : t.IsPrintable) : IsPrintable (.chan d t)
  | struct {fields : List (FieldDecl TypeExpr)} (hheads : ∀ f ∈ fields, f.IsHeaded)
      (htypes : ∀ f ∈ fields, f.type.IsPrintable)
      (htags : ∀ f ∈ fields, ∀ tag ∈ f.tag, IsStringLiteral tag.toList)
      (hspans : ∀ f ∈ fields, f.span = .empty 0) : IsPrintable (.struct fields)

/-! ## Single lexemes -/

/-- A text that lengthens no word before it. -/
def EndsWord (r : List Char) : Prop := ∀ d ∈ r.head?, continuesIdent d = false ∧ beginsLikeIdent d = false

theorem Separated.endsWord {r : List Char} (hr : Separated r) : EndsWord r := by
  intro d hd
  have hlike := beginsLikeIdent_separated hr
  rw [hd] at hlike
  exact ⟨(separator_facts (hr d hd)).1, hlike⟩

theorem endsWord_cons {c : Char} (cs : List Char) (hascii : c.toNat < 0x80) (hc : continuesIdent c = false) :
    EndsWord (c :: cs) := by
  rintro d ⟨⟩
  exact ⟨hc, beginsLikeIdent_ascii hascii⟩

theorem quotedBody_of_isQuotedText {body : List Char} (h : IsQuotedText body) (r : List Char) :
    quotedBody '\x22' (body ++ '\x22' :: r) = (body.length, true) := by
  induction h with
  | nil => rfl
  | char hquote hescape hline _ ih =>
    rw [List.cons_append, quotedBody_of_ne _ hescape, if_neg hquote, if_neg hline, ih]
    rfl
  | escape hline _ ih =>
    rw [List.cons_append, List.cons_append, quotedBody_escape, if_neg hline, ih]
    rfl

theorem rawBody_of_not_mem {body : List Char} (h : '\x60' ∉ body) (r : List Char) :
    rawBody '\x60' (body ++ '\x60' :: r) = (body.length, true) := by
  have hrun : runLength (· != '\x60') (body ++ '\x60' :: r) = body.length := by
    rw [runLength, List.takeWhile_append_of_pos]
    · simp
    · intro c hc
      rw [bne_iff_ne]
      rintro rfl
      exact h hc
  simp [rawBody, hrun]

/-- A string literal is one token. -/
theorem IsStringLiteral.lexemes_append {tag : String} (h : IsStringLiteral tag.toList) (r : List Char) :
    lexemes (tag.toList ++ r) = tokenLexeme (literalKind tag) tag :: lexemes r := by
  have hcut : ∀ {c : Char} {body : List Char} {k : TokenKind}, tag.toList = c :: (body ++ [c]) →
      lexemeAt c (body ++ c :: r) = quotedToken k (body.length, true) → literalKind tag = k →
      lexemes (tag.toList ++ r) = tokenLexeme (literalKind tag) tag :: lexemes r := by
    intro c body k htag hat hk
    have htext : c :: (body ++ c :: r) = tag.toList ++ r := by rw [htag]; simp
    have hquoted : quotedToken k (body.length, true) = (.token k, tag.toList.length) := by
      rw [htag]
      simp [quotedToken]
    rw [← htext, lexemes_cons, hat, htext, hquoted, List.take_left, List.drop_left, tokenLexeme, hk]
  generalize htag : tag.toList = cs at h
  rw [← htag]
  cases h with
  | quoted h =>
    refine hcut htag (k := .string) ?_ (by simp [literalKind, htag])
    rw [lexemeAt_string, quotedBody_of_isQuotedText h]
  | raw h =>
    refine hcut htag (k := .rawString) ?_ (by simp [literalKind, htag])
    rw [lexemeAt_rawString, rawBody_of_not_mem h]

theorem lexemes_number (n : Nat) {r : List Char} (hr : Separated r) :
    lexemes (Nat.toDigits 10 n ++ r) = ⟨.token .number, Nat.toDigits 10 n⟩ :: lexemes r := by
  have hlexemes := lexemes_digits Nat.toDigits_ne_nil (isDigit_toDigits (n := n))
  rw [lexemes_append_of_token _ _ hr, hlexemes]
  · rfl
  · simp [hlexemes, Lexeme.isSound]
  · simp [hlexemes, Lexeme.isToken]

theorem lexemes_keyword (word : Keyword) {r : List Char} (hr : EndsWord r) :
    lexemes (word.text.toList ++ r) = keywordLexeme word :: lexemes r := word.lexemes_append hr

theorem lexemes_star {r : List Char} (hr : ∀ d ∈ r.head?, d ≠ '=') :
    lexemes ('*' :: r) = tokenLexeme .star "*" :: lexemes r := lexemes_fixed (lexemeAt_star hr)

section

variable (r : List Char)

theorem lexemes_arrow : lexemes ('<' :: '-' :: r) = tokenLexeme .arrow "<-" :: lexemes r := rfl

theorem lexemes_comma : lexemes (',' :: r) = tokenLexeme .comma "," :: lexemes r := lexemes_fixed rfl

theorem lexemes_semicolon : lexemes (';' :: r) = tokenLexeme .semicolon ";" :: lexemes r := lexemes_fixed rfl

theorem lexemes_openSquare : lexemes ('[' :: r) = tokenLexeme (.opener .square) "[" :: lexemes r := lexemes_fixed rfl

theorem lexemes_closeSquare : lexemes (']' :: r) = tokenLexeme (.closer .square) "]" :: lexemes r := lexemes_fixed rfl

theorem lexemes_openBrace : lexemes ('\x7b' :: r) = tokenLexeme (.opener .brace) "\x7b" :: lexemes r :=
  lexemes_fixed rfl

theorem lexemes_closeBrace : lexemes ('\x7d' :: r) = tokenLexeme (.closer .brace) "\x7d" :: lexemes r :=
  lexemes_fixed rfl

end

theorem lexemes_space {r : List Char} (hr : ∀ d ∈ r.head?, isLineBlank d = false) :
    lexemes (' ' :: r) = spaceLexeme :: lexemes r :=
  lexemes_blanks (List.cons_ne_nil ' ' []) (by rintro c (_ | ⟨_, ⟨⟩⟩); rfl) hr

/-! ## Parts of a type -/

/-- Lexemes whose text is cut into them again before a separator. -/
def IsCutAgain (ls : List Lexeme) : Prop :=
  ∀ {r : List Char}, Separated r → lexemes (lexemesText ls ++ r) = ls ++ lexemes r

/-- A text that begins with a character that is neither a blank nor can follow a star in an operator. -/
def BeginsWord (cs : List Char) : Prop := ∃ c s, cs = c :: s ∧ c ≠ '=' ∧ isLineBlank c = false

theorem BeginsWord.append {cs : List Char} (h : BeginsWord cs) (r : List Char) : BeginsWord (cs ++ r) := by
  obtain ⟨c, s, rfl, hc⟩ := h
  exact ⟨c, s ++ r, rfl, hc⟩

theorem BeginsWord.not_blank {cs : List Char} (h : BeginsWord cs) : ∀ d ∈ cs.head?, isLineBlank d = false := by
  obtain ⟨c, s, rfl, -, hc⟩ := h
  rintro d ⟨⟩
  exact hc

theorem BeginsWord.not_assign {cs : List Char} (h : BeginsWord cs) : ∀ d ∈ cs.head?, d ≠ '=' := by
  obtain ⟨c, s, rfl, hc, -⟩ := h
  rintro d ⟨⟩
  exact hc

theorem IsIdentifier.beginsWord {name : List Char} (h : IsIdentifier name) : BeginsWord name := by
  obtain ⟨c, s, rfl, hc, -⟩ := h.letters
  refine ⟨c, s, rfl, ?_, (startsIdent_facts hc).1⟩
  rintro rfl
  exact absurd hc (by decide)

theorem lexemes_nameLexemes {package : Option String} {name : String}
    (hpackage : ∀ p ∈ package, IsIdentifier p.toList) (hname : IsIdentifier name.toList) {r : List Char}
    (hr : EndsWord r) :
    lexemes (lexemesText (nameLexemes package name) ++ r) = nameLexemes package name ++ lexemes r := by
  have hident : lexemes (name.toList ++ r) = tokenLexeme .ident name :: lexemes r :=
    hname.lexemes_append fun d hd => (hr d hd).1
  cases package with
  | none => simpa [nameLexemes] using hident
  | some p =>
    obtain ⟨c, s, htext, hc, -⟩ := hname.letters
    have hdot : lexemes ('.' :: (name.toList ++ r)) = tokenLexeme .dot "." :: lexemes (name.toList ++ r) := by
      rw [htext]
      exact lexemes_fixed (lexemeAt_dot hc _)
    have hp : lexemes (p.toList ++ '.' :: (name.toList ++ r)) =
        tokenLexeme .ident p :: lexemes ('.' :: (name.toList ++ r)) :=
      (hpackage p rfl).lexemes_append (by rintro d ⟨⟩; decide +kernel)
    simp [nameLexemes, hp, hdot, hident]

theorem lexemes_direction (d : Direction) {r : List Char} (hr : ∀ c ∈ r.head?, isLineBlank c = false) :
    lexemes (lexemesText d.lexemes ++ r) = d.lexemes ++ lexemes r := by
  have hspace := lexemes_space hr
  have hchan : ∀ {s : List Char}, EndsWord s →
      lexemes ('c' :: 'h' :: 'a' :: 'n' :: s) = keywordLexeme .chanWord :: lexemes s := fun hs =>
    lexemes_keyword .chanWord hs
  have hblank : EndsWord (' ' :: r) := endsWord_cons r (by decide) (by decide)
  cases d with
  | both => simpa [Direction.lexemes, Keyword.text, hspace] using hchan hblank
  | send =>
    have hless : EndsWord ('<' :: '-' :: ' ' :: r) := endsWord_cons _ (by decide) (by decide)
    simpa [Direction.lexemes, Keyword.text, hspace, lexemes_arrow] using hchan hless
  | receive => simpa [Direction.lexemes, Keyword.text, hspace, lexemes_arrow] using hchan hblank

theorem IsStringLiteral.beginsWord {tag : List Char} (h : IsStringLiteral tag) : BeginsWord tag := by
  cases h with
  | quoted _ => exact ⟨_, _, rfl, by decide, rfl⟩
  | raw _ => exact ⟨_, _, rfl, by decide, rfl⟩

theorem lexemes_tag {tag : Option String} (h : ∀ text ∈ tag, IsStringLiteral text.toList) (r : List Char) :
    lexemes (lexemesText (tagLexemes tag) ++ r) = tagLexemes tag ++ lexemes r := by
  cases tag with
  | none => rfl
  | some text =>
    have hliteral := h text rfl
    have hspace := lexemes_space (hliteral.beginsWord.append r).not_blank
    simp [tagLexemes, hspace, hliteral.lexemes_append]

theorem separated_tag (tag : Option String) {r : List Char} (hr : Separated r) :
    Separated (lexemesText (tagLexemes tag) ++ r) := by
  cases tag with
  | none => exact hr
  | some text => rintro d ⟨⟩; decide

/-! ## Whole types -/

open TypeExpr (argLexemes moreLexemes bodyLexemes fieldLexemes moreFieldLexemes)

theorem TypeExpr.IsPrintable.beginsWord {e : TypeExpr} (h : e.IsPrintable) : BeginsWord (lexemesText e.lexemes) := by
  cases h with
  | @name package name args hpackage hname hargs =>
    rw [TypeExpr.lexemes, lexemesText_append]
    apply BeginsWord.append
    cases package with
    | none => simpa [nameLexemes] using hname.beginsWord
    | some p => simpa [nameLexemes] using (hpackage p rfl).beginsWord.append _
  | @chan d t ht => cases d <;> exact ⟨_, _, rfl, by decide, rfl⟩
  | _ => exact ⟨_, _, rfl, by decide, rfl⟩

theorem separated_more (args : List TypeExpr) {r : List Char} (hr : Separated r) :
    Separated (lexemesText (moreLexemes args) ++ r) := by
  cases args with
  | nil => exact hr
  | cons a args => rintro d ⟨⟩; decide

theorem separated_moreFields (fields : List (FieldDecl TypeExpr)) {r : List Char} (hr : Separated r) :
    Separated (lexemesText (moreFieldLexemes fields) ++ r) := by
  cases fields with
  | nil => exact hr
  | cons f fields => rintro d ⟨⟩; decide

theorem isCutAgain_more {args : List TypeExpr} (hargs : ∀ a ∈ args, a.IsPrintable)
    (h : ∀ a ∈ args, IsCutAgain a.lexemes) : IsCutAgain (moreLexemes args) := by
  intro r hr
  induction args with
  | nil => rfl
  | cons a args ih =>
    have hmore := ih (fun b hb => hargs b (by simp [hb])) fun b hb => h b (by simp [hb])
    have hfirst := h a (by simp) (separated_more args hr)
    have hspace := lexemes_space ((hargs a (by simp)).beginsWord.append (lexemesText (moreLexemes args) ++ r)).not_blank
    simp [moreLexemes, lexemes_comma, hspace, hfirst, hmore]

theorem lexemes_args {args : List TypeExpr} (hargs : ∀ a ∈ args, a.IsPrintable)
    (h : ∀ a ∈ args, IsCutAgain a.lexemes) (r : List Char) :
    lexemes (lexemesText (argLexemes args) ++ r) = argLexemes args ++ lexemes r := by
  cases args with
  | nil => rfl
  | cons a args =>
    have hclose : Separated (']' :: r) := by rintro d ⟨⟩; decide
    have hmore : IsCutAgain (moreLexemes args) :=
      isCutAgain_more (fun b hb => hargs b (by simp [hb])) fun b hb => h b (by simp [hb])
    have hfirst := h a (by simp) (separated_more args hclose)
    simp [argLexemes, lexemes_openSquare, hfirst, hmore hclose, lexemes_closeSquare]

theorem beginsWord_field {f : FieldDecl TypeExpr} (hhead : f.IsHeaded) (htype : f.type.IsPrintable) :
    BeginsWord (lexemesText (fieldLexemes f)) := by
  obtain ⟨names, t, tag, span⟩ := f
  have hbegins := htype.beginsWord
  cases hhead with
  | @named name h hname =>
    obtain rfl : names = [name] := h
    simpa [fieldLexemes, fieldNameLexemes] using hname.beginsWord.append _
  | embedded h | pointer h =>
    obtain rfl : names = [] := h
    simpa [fieldLexemes, fieldNameLexemes] using hbegins.append _

theorem isCutAgain_field {f : FieldDecl TypeExpr} (hhead : f.IsHeaded) (htype : f.type.IsPrintable)
    (htag : ∀ tag ∈ f.tag, IsStringLiteral tag.toList) (h : IsCutAgain f.type.lexemes) :
    IsCutAgain (fieldLexemes f) := by
  intro r hr
  obtain ⟨names, t, tag, span⟩ := f
  have ht : lexemes (lexemesText t.lexemes ++ (lexemesText (tagLexemes tag) ++ r)) =
      t.lexemes ++ (tagLexemes tag ++ lexemes r) := by
    rw [h (separated_tag tag hr), lexemes_tag htag]
  cases hhead with
  | @named name h hname =>
    obtain rfl : names = [name] := h
    have hspace := lexemes_space (htype.beginsWord.append (lexemesText (tagLexemes tag) ++ r)).not_blank
    have hname : ∀ cs, lexemes (name.toList ++ ' ' :: cs) = tokenLexeme .ident name :: lexemes (' ' :: cs) :=
      fun cs => hname.lexemes_append (by rintro d ⟨⟩; decide +kernel)
    simp [fieldLexemes, fieldNameLexemes, hname, hspace, ht]
  | embedded h | pointer h =>
    obtain rfl : names = [] := h
    simp [fieldLexemes, fieldNameLexemes, ht]

section

variable {fields : List (FieldDecl TypeExpr)} (hheads : ∀ f ∈ fields, f.IsHeaded)
  (htypes : ∀ f ∈ fields, f.type.IsPrintable) (hcut : ∀ f ∈ fields, IsCutAgain (fieldLexemes f))

include hheads htypes hcut

theorem isCutAgain_moreFields : IsCutAgain (moreFieldLexemes fields) := by
  intro r hr
  induction fields with
  | nil => rfl
  | cons f fields ih =>
    have hmore := ih (fun g hg => hheads g (by simp [hg])) (fun g hg => htypes g (by simp [hg]))
      fun g hg => hcut g (by simp [hg])
    have hfirst := hcut f (by simp) (separated_moreFields fields hr)
    have hspace := lexemes_space ((beginsWord_field (hheads f (by simp)) (htypes f (by simp))).append
      (lexemesText (moreFieldLexemes fields) ++ r)).not_blank
    simp [moreFieldLexemes, lexemes_semicolon, hspace, hfirst, hmore]

theorem lexemes_body (r : List Char) :
    lexemes (lexemesText (bodyLexemes fields) ++ '\x7d' :: r) = bodyLexemes fields ++ lexemes ('\x7d' :: r) := by
  cases fields with
  | nil => rfl
  | cons f fields =>
    have hclose : Separated (' ' :: '\x7d' :: r) := by rintro d ⟨⟩; decide
    have hmore : IsCutAgain (moreFieldLexemes fields) :=
      isCutAgain_moreFields (fun g hg => hheads g (by simp [hg])) (fun g hg => htypes g (by simp [hg]))
        fun g hg => hcut g (by simp [hg])
    have hfirst := hcut f (by simp) (separated_moreFields fields hclose)
    have hspace := lexemes_space ((beginsWord_field (hheads f (by simp)) (htypes f (by simp))).append
      (lexemesText (moreFieldLexemes fields) ++ ' ' :: '\x7d' :: r)).not_blank
    have hend : lexemes (' ' :: '\x7d' :: r) = spaceLexeme :: lexemes ('\x7d' :: r) :=
      lexemes_space (by rintro d ⟨⟩; rfl)
    simp [bodyLexemes, hspace, hfirst, hmore hclose, hend]

end

/-- The text of a printable type is cut into its lexemes again. -/
theorem TypeExpr.IsPrintable.isCutAgain {e : TypeExpr} (h : e.IsPrintable) : IsCutAgain e.lexemes := by
  induction h with
  | @name package name args hpackage hname hargs ih =>
    intro r hr
    have hword : EndsWord (lexemesText (argLexemes args) ++ r) := by
      cases args with
      | nil => exact hr.endsWord
      | cons a args => exact endsWord_cons _ (by decide) (by decide)
    simp [TypeExpr.lexemes, lexemes_nameLexemes hpackage hname hword, lexemes_args hargs ih]
  | @pointer t ht ih =>
    intro r hr
    have hstar := lexemes_star (ht.beginsWord.append r).not_assign
    simp [TypeExpr.lexemes, hstar, ih hr]
  | slice ht ih =>
    intro r hr
    simp [TypeExpr.lexemes, lexemes_openSquare, lexemes_closeSquare, ih hr]
  | @array n t hn ht ih =>
    intro r hr
    have hclose : Separated (']' :: (lexemesText t.lexemes ++ r)) := by rintro d ⟨⟩; decide
    simp [TypeExpr.lexemes, WrittenLength.lexemes, lexemes_openSquare, lexemes_closeSquare,
      lexemes_number n hclose, ih hr]
  | @map k v hk hv ihk ihv =>
    intro r hr
    have hclose : Separated (']' :: (lexemesText v.lexemes ++ r)) := by rintro d ⟨⟩; decide
    have hword := lexemes_keyword .mapWord
      (endsWord_cons (c := '[') (lexemesText k.lexemes ++ ']' :: (lexemesText v.lexemes ++ r)) (by decide) (by decide))
    simp [TypeExpr.lexemes, lexemes_openSquare, lexemes_closeSquare, hword, ihk hclose, ihv hr]
  | @chan d t ht ih =>
    intro r hr
    have hspace := (ht.beginsWord.append r).not_blank
    simp [TypeExpr.lexemes, lexemes_direction d hspace, ih hr]
  | @struct fields hheads htypes htags hspans ih =>
    intro r hr
    have hbody := lexemes_body hheads htypes
      (fun f hf => isCutAgain_field (hheads f hf) (htypes f hf) (htags f hf) (ih f hf)) r
    have hword := lexemes_keyword .structWord
      (endsWord_cons (c := '\x7b') (lexemesText (bodyLexemes fields) ++ '\x7d' :: r) (by decide) (by decide))
    simp [TypeExpr.lexemes, lexemes_openBrace, lexemes_closeBrace, hword, hbody]

end LiteralFill
