import LiteralFill.Proofs.Filled.Value
import LiteralFill.Fill.Zero

/-!
The texts of types. A type whose names are names, and whose other texts stand for themselves, is written as a
text that stands for itself as well.
-/

namespace LiteralFill

/-! ## Pieces of a text -/

theorem lexemeAt_star {cs : List Char} (h : ∀ c ∈ cs.head?, c ≠ '=') : lexemeAt '*' cs = (.token .star, 1) := by
  have hfixed : BeginsFixed '*' cs := by
    simp [BeginsFixed]
    decide
  rw [lexemeAt_fixed hfixed]
  cases cs with
  | nil => rfl
  | cons c cs =>
    have hc : ('=' == c) = false := beq_false_of_ne (h c rfl).symm
    have hstar : fixedToken ('*' :: c :: cs) = some (.star, 1) := by
      simp [fixedToken, fixedTokens, List.find?, List.isPrefixOf, hc]
    rw [hstar]

theorem not_isDigit_of_startsIdent {c : Char} (h : startsIdent c) : c.isDigit = false := by
  rw [← Bool.not_eq_true]
  intro hdigit
  have hrange : 48 ≤ c.toNat ∧ c.toNat ≤ 57 := by
    simpa [Char.isDigit, UInt32.le_iff_toNat_le] using hdigit
  rw [startsIdent, isLetter, if_pos (by omega), Bool.or_eq_true, beq_iff_eq] at h
  rcases h with rfl | h
  · exact absurd hdigit (by decide)
  · have hletter := isAlpha_iff.mp h
    omega

theorem lexemeAt_dot {c : Char} (h : startsIdent c) (cs : List Char) : lexemeAt '.' (c :: cs) = (.token .dot, 1) := by
  have hfixed : BeginsFixed '.' (c :: cs) := by
    simp [BeginsFixed, not_isDigit_of_startsIdent h]
    decide
  have hc : ('.' == c) = false := by
    rw [beq_eq_false_iff_ne]
    rintro rfl
    exact absurd h (by decide)
  have hdot : fixedToken ('.' :: c :: cs) = some (.dot, 1) := by
    simp [fixedToken, fixedTokens, List.find?, List.isPrefixOf, hc]
  rw [lexemeAt_fixed hfixed, hdot]

/-- How an opening bracket is written. -/
def Bracket.left : Bracket → Char
  | paren => '('
  | square => '['
  | brace => '\x7b'

/-- How a closing bracket is written. -/
def Bracket.right : Bracket → Char
  | paren => ')'
  | square => ']'
  | brace => '\x7d'

namespace IsPart

variable {a b : List Char} {ks ls : List TokenKind}

/-- A text in brackets, and another text behind it. -/
theorem bracket (br : Bracket) (ha : IsPart a ks) (hb : IsPart b ls) :
    IsPart (br.left :: (a ++ br.right :: b)) (.opener br :: (ks ++ .closer br :: ls)) := by
  have hclose : IsPart (br.right :: b) (.closer br :: ls) := by
    cases br <;> exact .cons rfl rfl rfl hb
  have hinner : IsPart (a ++ br.right :: b) (ks ++ .closer br :: ls) :=
    ha.append hclose (by cases br <;> (rintro d ⟨⟩; decide))
  cases br <;> exact .cons rfl rfl rfl hinner

/-- A text in brackets. -/
theorem inBrackets (br : Bracket) (ha : IsPart a ks) :
    IsPart (br.left :: (a ++ [br.right])) (.opener br :: (ks ++ [.closer br])) := by
  have hclose : IsPart [br.right] [.closer br] := by
    cases br <;> exact .single rfl rfl
  have hinner : IsPart (a ++ [br.right]) (ks ++ [.closer br]) :=
    ha.append hclose (by cases br <;> (rintro d ⟨⟩; decide))
  cases br <;> exact .cons rfl rfl rfl hinner

end IsPart

theorem Keyword.ofText?_text (k : Keyword) : Keyword.ofText? k.text.toList = some k := by
  cases k <;> rfl

theorem Keyword.letters (k : Keyword) :
    ∃ c cs, k.text.toList = c :: cs ∧ startsIdent c = true ∧ cs.all continuesIdent = true := by
  cases k <;> exact ⟨_, _, rfl, rfl, rfl⟩

/-- A reserved word goes up to the next character that can neither continue a word nor begin one. -/
theorem Keyword.lexemes_append (k : Keyword) {r : List Char}
    (hr : ∀ d ∈ r.head?, continuesIdent d = false ∧ beginsLikeIdent d = false) :
    lexemes (k.text.toList ++ r) = ⟨.token (.keyword k), k.text.toList⟩ :: lexemes r := by
  obtain ⟨c, cs, htext, hc, hcs⟩ := k.letters
  have hrest : r.takeWhile continuesIdent = [] := by
    cases r with
    | nil => rfl
    | cons d r => simp [(hr d rfl).1]
  have hlength : runLength continuesIdent (cs ++ r) = cs.length := by
    rw [runLength, List.takeWhile_append_of_pos (List.all_eq_true.mp hcs), hrest, List.append_nil]
  have hnext : r.head?.any beginsLikeIdent = false := by
    cases r with
    | nil => rfl
    | cons d r => exact (hr d rfl).2
  have hkind : wordKind (c :: cs) r.head? = .keyword k := by
    rw [wordKind, ← htext, ofText?_text]
    simp [hnext]
  rw [htext, List.cons_append, lexemes_cons, lexemeAt_word _ hc, hlength, List.take_left, List.drop_left, hkind,
    Nat.add_comm 1]
  simp

theorem Keyword.lexemes_eq (k : Keyword) : lexemes k.text.toList = [⟨.token (.keyword k), k.text.toList⟩] := by
  simpa [lexemes_nil] using k.lexemes_append (r := []) (by simp)

theorem Keyword.isPart (k : Keyword) : IsPart k.text.toList [.keyword k] := by
  refine ⟨?_, ⟨_, _, k.lexemes_eq, rfl⟩, ?_, ?_⟩
  · simp [k.lexemes_eq, Lexeme.isSound]
  · simp [k.lexemes_eq, Lexeme.isToken]
  · simp [kindsWithin, k.lexemes_eq, tokensWithin_cons, lexemeTokens]

theorem isPart_arrow : IsPart ['<', '-'] [.arrow] := by
  have hlexemes : lexemes ['<', '-'] = [⟨.token .arrow, ['<', '-']⟩] := rfl
  refine ⟨?_, ⟨_, _, hlexemes, rfl⟩, ?_, ?_⟩
  · simp [hlexemes, Lexeme.isSound]
  · simp [hlexemes, Lexeme.isToken]
  · simp [kindsWithin, hlexemes, tokensWithin_cons, lexemeTokens]

theorem Primitive.isIdentifier {p : Primitive} (h : p ≠ .pointer) : IsIdentifier p.name.toList := by
  cases p with
  | pointer => exact absurd rfl h
  | _ => exact ⟨⟨_, _, rfl, rfl, List.all_eq_true.mp rfl⟩, rfl⟩

theorem IsIdentifier.isPart {name : List Char} (h : IsIdentifier name) : IsPart name [.ident] := by
  have hlexemes := h.lexemes_append (r := []) (by simp)
  rw [List.append_nil, lexemes_nil] at hlexemes
  refine ⟨?_, ⟨_, _, hlexemes, rfl⟩, ?_, ?_⟩
  · simp [hlexemes, Lexeme.isSound, h.word]
  · simp [hlexemes, Lexeme.isToken]
  · simp [kindsWithin, hlexemes, tokensWithin_cons, lexemeTokens]

/-! ## Texts that stand for types -/

/-- A text that stands for itself within brackets. -/
def IsInner (text : List Char) : Prop := ∃ ks, IsPart text ks ∧ IsBalanced ks

/-- A text that stands for itself as a type, also behind a star. -/
structure IsTypeText (text : List Char) : Prop where
  part : ∃ ks, IsPart text ks ∧ IsValue ks
  begins : ∀ c ∈ text.head?, c ≠ '='

/-- Any text that holds the length of an array. It may end in blanks. -/
structure IsLengthText (text : List Char) : Prop where
  sound : ∀ l ∈ lexemes text, l.isSound
  plain : ∀ l ∈ lexemes text, l.isToken ∨ l.kind = .blank
  balanced : IsBalanced (kindsWithin false text)

namespace IsInner

variable {a b : List Char}

theorem comma (ha : IsInner a) (hb : IsInner b) : IsInner (a ++ ',' :: ' ' :: b) := by
  obtain ⟨ks, ha, hks⟩ := ha
  obtain ⟨ls, hb, hls⟩ := hb
  have hcomma : IsPart [','] [.comma] := .single rfl rfl
  have h := (ha.append hcomma (by rintro d ⟨⟩; decide)).space hb
  rw [List.append_assoc] at h
  exact ⟨_, h, (hks.append (.single rfl .none)).append hls⟩

theorem semicolon (ha : IsInner a) (hb : IsInner b) : IsInner (a ++ ';' :: ' ' :: b) := by
  obtain ⟨ks, ha, hks⟩ := ha
  obtain ⟨ls, hb, hls⟩ := hb
  have hsemicolon : IsPart [';'] [.semicolon] := .single rfl rfl
  have h := (ha.append hsemicolon (by rintro d ⟨⟩; decide)).space hb
  rw [List.append_assoc] at h
  exact ⟨_, h, (hks.append (.single rfl .none)).append hls⟩

theorem space (ha : IsInner a) (hb : IsInner b) : IsInner (a ++ ' ' :: b) := by
  obtain ⟨ks, ha, hks⟩ := ha
  obtain ⟨ls, hb, hls⟩ := hb
  exact ⟨_, ha.space hb, hks.append hls⟩

end IsInner

namespace IsTypeText

variable {a b : List Char}

theorem inner (h : IsTypeText a) : IsInner a := by
  obtain ⟨ks, hpart, hvalue⟩ := h.part
  exact ⟨ks, hpart, hvalue.balanced⟩

theorem ne_nil (h : IsTypeText a) : a ≠ [] := by
  obtain ⟨ks, hpart, -⟩ := h.part
  exact hpart.ne_nil

theorem of_identifier {name : List Char} (h : IsIdentifier name) : IsTypeText name := by
  refine ⟨⟨_, h.isPart, .single rfl (by simp) .none⟩, ?_⟩
  obtain ⟨c, cs, rfl, hc, -⟩ := h.letters
  rintro d ⟨⟩ rfl
  exact absurd hc (by decide)

/-- A name behind a point. -/
theorem dot {name : List Char} (h : IsIdentifier name) : IsTypeText ('.' :: name) := by
  have hpart : IsPart ('.' :: name) [.dot, .ident] := by
    obtain ⟨c, cs, rfl, hc, -⟩ := h.letters
    exact .cons rfl (lexemeAt_dot hc cs) rfl h.isPart
  exact ⟨⟨_, hpart, .single rfl (by simp) (.single rfl (by simp) .none)⟩, by rintro c ⟨⟩; decide⟩

/-- A name of another package. -/
theorem qualified {package name : List Char} (h : IsIdentifier package) (h' : IsIdentifier name) :
    IsTypeText (package ++ '.' :: name) := by
  obtain ⟨ks, hpart, hvalue⟩ := (dot h').part
  have hlexemes : lexemes (package ++ '.' :: name) = lexemes package ++ lexemes ('.' :: name) := by
    have hword := h.lexemes_append (r := []) (by simp)
    rw [List.append_nil, lexemes_nil] at hword
    rw [h.lexemes_append (by rintro d ⟨⟩; decide +kernel), hword]
    rfl
  refine ⟨⟨_, h.isPart.append_of_lexemes hpart hlexemes, .single rfl (by simp) hvalue⟩, ?_⟩
  rw [List.head?_append_of_ne_nil _ h.isPart.ne_nil]
  exact (of_identifier h).begins

theorem star (h : IsTypeText a) : IsTypeText ('*' :: a) := by
  obtain ⟨ks, hpart, hvalue⟩ := h.part
  exact ⟨⟨_, .cons rfl (lexemeAt_star h.begins) rfl hpart, .single rfl (by simp) hvalue⟩, by rintro c ⟨⟩; decide⟩

/-- A text in square brackets before a type. -/
theorem square (ha : IsInner a) (h : IsTypeText b) : IsTypeText ('[' :: (a ++ ']' :: b)) := by
  obtain ⟨ks, hpart, hbalanced⟩ := ha
  obtain ⟨ls, hpart', hvalue⟩ := h.part
  exact ⟨⟨_, hpart.bracket .square hpart', .group hbalanced hvalue⟩, by rintro c ⟨⟩; decide⟩

theorem slice (h : IsTypeText a) : IsTypeText ('[' :: ']' :: a) := by
  obtain ⟨ks, hpart, hvalue⟩ := h.part
  exact ⟨⟨_, .cons rfl rfl rfl (.cons rfl rfl rfl hpart), .group .none hvalue⟩, by rintro c ⟨⟩; decide⟩

/-- A text behind brackets. -/
theorem append_brackets (br : Bracket) (h : IsTypeText a) (hb : IsInner b) :
    IsTypeText (a ++ br.left :: (b ++ [br.right])) := by
  obtain ⟨ks, hpart, hvalue⟩ := h.part
  obtain ⟨ls, hpart', hbalanced⟩ := hb
  refine ⟨⟨_, hpart.append (hpart'.inBrackets br) (by cases br <;> (rintro d ⟨⟩; decide)),
    hvalue.append (.brackets br hbalanced)⟩, ?_⟩
  rw [List.head?_append_of_ne_nil _ h.ne_nil]
  exact h.begins

end IsTypeText

/-! ## Lengths -/

/-- Digits are one number. -/
theorem lexemes_digits {cs : List Char} (hne : cs ≠ []) (h : ∀ d ∈ cs, d.isDigit) :
    lexemes cs = [⟨.token .number, cs⟩] := by
  obtain ⟨c, cs, rfl⟩ := List.exists_cons_of_ne_nil hne
  have hword : ∀ d ∈ c :: cs, isNumberWord d := by
    intro d hd
    simp [isNumberWord, Char.isAlphanum, h d hd]
  have hrun : runLength isNumberWord (c :: cs) = (c :: cs).length := by
    rw [runLength, List.takeWhile_eq_self_iff.mpr hword]
  have hlength : numberLength (c :: cs) = (c :: cs).length := by
    have hle := (lexemeAt_length c cs).2
    rw [lexemeAt_number cs (h c (by simp))] at hle
    refine Nat.le_antisymm hle ?_
    rw [numberLength, plainNumberLength_eq, hrun]
    omega
  rw [lexemes_cons, lexemeAt_number cs (h c (by simp)), hlength, List.take_length, List.drop_length, lexemes_nil]

/-- Digits make the length of an array. -/
theorem isLengthText_digits {cs : List Char} (hne : cs ≠ []) (h : ∀ d ∈ cs, d.isDigit) : IsLengthText cs := by
  have hlexemes := lexemes_digits hne h
  refine ⟨?_, ?_, ?_⟩
  · simp [hlexemes, Lexeme.isSound]
  · simp [hlexemes, Lexeme.isToken]
  · rw [kindsWithin, hlexemes]
    exact .single rfl .none

/-- A length in square brackets before a type. -/
theorem IsLengthText.square {a b : List Char} (ha : IsLengthText a) (h : IsTypeText b) :
    IsTypeText ('[' :: (a ++ ']' :: b)) := by
  obtain ⟨ls, hpart, hvalue⟩ := h.part
  have hclose : lexemes (']' :: b) = ⟨.token (.closer .square), [']']⟩ :: lexemes b := lexemes_fixed rfl
  have hinner : lexemes (a ++ ']' :: b) = lexemes a ++ ⟨.token (.closer .square), [']']⟩ :: lexemes b := by
    rw [← hclose]
    refine lexemes_append_of_append (r := []) (by rw [List.append_nil, lexemes_nil, List.append_nil])
      ha.sound (by rintro d ⟨⟩; decide) fun l hl => ?_
    obtain ⟨kind, text⟩ := l
    rcases ha.plain _ (List.mem_of_getLast? hl) with hl | hl
    · cases kind with
      | token k => trivial
      | _ => cases hl
    · obtain rfl : kind = .blank := hl
      rintro d ⟨⟩
      rfl
  have hall : lexemes ('[' :: (a ++ ']' :: b)) = ⟨.token (.opener .square), ['[']⟩ ::
      (lexemes a ++ ⟨.token (.closer .square), [']']⟩ :: lexemes b) := by
    rw [lexemes_fixed rfl, hinner]
  obtain ⟨m, rest, hfirst, -⟩ := hpart.begins
  refine ⟨⟨.opener .square :: (kindsWithin false a ++ .closer .square :: ls), ⟨?_, ⟨_, _, hall, rfl⟩, ?_, ?_⟩,
    .group ha.balanced hvalue⟩, by rintro c ⟨⟩; decide⟩
  · rw [hall]
    simp only [List.mem_cons, List.mem_append]
    rintro l (rfl | hl | rfl | hl)
    · rfl
    · exact ha.sound l hl
    · rfl
    · exact hpart.sound l hl
  · rw [hall, ← List.cons_append, List.append_cons, getLast?_append_right _ (by rw [hfirst]; exact List.cons_ne_nil _ _)]
    exact hpart.ends
  · rw [kindsWithin, hall]
    simp only [tokensWithin_cons, lexemeTokens, tokensWithin_append, TokenKind.endsStatement,
      List.map_append, List.map_cons, List.cons_append, List.nil_append, kinds_tokensWithin, hpart.kindsWithin_eq]

/-! ## Types -/

/-- The length of an array can be written. -/
def Length.IsWritten : Length → Prop
  | .known _ => True
  | .symbolic text => IsLengthText text.toList

/-- A type can be written in a file: names are names, and texts kept of other files are whole. -/
inductive Ty.IsWritten (q : Qualifier) : Ty → Prop
  | primitive {p : Primitive} (h : p = .pointer → IsTypeText (showName q pointerName).toList) :
      IsWritten q (.primitive p)
  | named {n : TypeName} {args : List Ty} {t : Ty} (hn : IsTypeText (showName q n).toList)
      (hargs : ∀ a ∈ args, IsWritten q a) (ht : IsWritten q t) : IsWritten q (.named n args t)
  | unseen {n : TypeName} (hn : IsTypeText (showName q n).toList) : IsWritten q (.unseen n)
  | pointer {t : Ty} (ht : IsWritten q t) : IsWritten q (.pointer t)
  | slice {t : Ty} (ht : IsWritten q t) : IsWritten q (.slice t)
  | array {l : Length} {t : Ty} (hl : l.IsWritten) (ht : IsWritten q t) : IsWritten q (.array l t)
  | map {k v : Ty} (hk : IsWritten q k) (hv : IsWritten q v) : IsWritten q (.map k v)
  | chan {d : Direction} {t : Ty} (ht : IsWritten q t) : IsWritten q (.chan d t)
  | struct {fields : List (Field Ty)} (hnames : ∀ f ∈ fields, IsIdentifier f.name.toList)
      (htypes : ∀ f ∈ fields, IsWritten q f.type) (htags : ∀ f ∈ fields, ∀ tag ∈ f.tag, IsInner tag.toList) :
      IsWritten q (.struct fields)
  | interface {text : String} (h : IsTypeText text.toList) : IsWritten q (.interface text)
  | func {text : String} (h : IsTypeText text.toList) : IsWritten q (.func text)
  | param {name : String} (h : IsIdentifier name.toList) : IsWritten q (.param name)

section

variable {q : Qualifier}

theorem isInner_displayMore {first : List Char} (hfirst : IsInner first) {args : List Ty}
    (h : ∀ a ∈ args, IsTypeText (a.display q).toList) : IsInner (first ++ (Ty.displayMore q args).toList) := by
  induction args generalizing first with
  | nil => simpa [Ty.displayMore] using hfirst
  | cons a args ih =>
    have := ih (hfirst.comma (h a (by simp)).inner) fun b hb => h b (by simp [hb])
    simpa [Ty.displayMore] using this

theorem isInner_displayField {f : Field Ty} (hname : IsIdentifier f.name.toList)
    (htype : IsTypeText (f.type.display q).toList) (htag : ∀ tag ∈ f.tag, IsInner tag.toList) :
    IsInner (Ty.displayField q f).toList := by
  obtain ⟨name, t, embedded, tag⟩ := f
  have hhead : IsInner (if embedded then t.display q else name ++ " " ++ t.display q).toList := by
    cases embedded with
    | true => exact htype.inner
    | false => simpa using (IsTypeText.of_identifier hname).inner.space htype.inner
  cases tag with
  | none => simpa [Ty.displayField] using hhead
  | some tag => simpa [Ty.displayField] using hhead.space (htag tag rfl)

theorem isInner_displayMoreFields {first : List Char} (hfirst : IsInner first) {fields : List (Field Ty)}
    (h : ∀ f ∈ fields, IsInner (Ty.displayField q f).toList) :
    IsInner (first ++ (Ty.displayMoreFields q fields).toList) := by
  induction fields generalizing first with
  | nil => simpa [Ty.displayMoreFields] using hfirst
  | cons f fields ih =>
    have := ih (hfirst.semicolon (h f (by simp))) fun g hg => h g (by simp [hg])
    simpa [Ty.displayMoreFields] using this

/-- What stands before the element of a channel type ends in a space. -/
theorem isTypeText_chan (d : Direction) {b : List Char} (hb : IsTypeText b) : IsTypeText (d.text.toList ++ b) := by
  obtain ⟨ks, hpart, hvalue⟩ := hb.part
  have hword : ∀ {w : List Char} {ls : List TokenKind}, IsPart w ls → IsValue ls → (∀ c ∈ w.head?, c ≠ '=') →
      IsTypeText (w ++ ' ' :: b) := by
    intro w ls hw hls hbegins
    refine ⟨⟨_, hw.space hpart, hls.append hvalue⟩, ?_⟩
    rw [List.head?_append_of_ne_nil _ hw.ne_nil]
    exact hbegins
  have hchan := Keyword.isPart .chanWord
  have hbegins : ∀ c ∈ (Keyword.text .chanWord).toList.head?, c ≠ '=' := by rintro c ⟨⟩; exact nofun
  have hvalueWord : IsValue [.keyword .chanWord] := .single rfl (by simp) .none
  have hvalueArrow : IsValue [.arrow] := .single rfl (by simp) .none
  cases d with
  | both => exact hword hchan hvalueWord hbegins
  | send =>
    have hsplit : lexemes ((Keyword.text .chanWord).toList ++ ['<', '-']) =
        lexemes (Keyword.text .chanWord).toList ++ lexemes ['<', '-'] := by
      have hless : continuesIdent '<' = false := by decide
      rw [Keyword.lexemes_append _ (by simp [hless, beginsLikeIdent_ascii]), Keyword.lexemes_eq]
      rfl
    have hsend := hchan.append_of_lexemes isPart_arrow hsplit
    refine hword hsend (hvalueWord.append hvalueArrow) ?_
    rwa [List.head?_append_of_ne_nil _ hchan.ne_nil]
  | receive =>
    have hreceive := isPart_arrow.append_of_lexemes hchan rfl
    exact hword hreceive (hvalueArrow.append hvalueWord) (by rintro c ⟨⟩; exact nofun)

theorem isTypeText_map {a b : List Char} (ha : IsInner a) (hb : IsTypeText b) :
    IsTypeText ("map".toList ++ '[' :: (a ++ ']' :: b)) := by
  obtain ⟨ks, hpart, hvalue⟩ := (IsTypeText.square ha hb).part
  exact ⟨⟨_, (Keyword.isPart .mapWord).append hpart (by rintro d ⟨⟩; decide), .single rfl (by simp) hvalue⟩,
    by rintro c ⟨⟩; decide⟩

theorem isTypeText_struct {a : List Char} (ha : IsInner a) :
    IsTypeText ("struct\x7b".toList ++ ' ' :: (a ++ ' ' :: ['\x7d'])) := by
  have hbrace : IsPart ['\x7b'] [.opener .brace] := .single rfl rfl
  have hopen : IsPart "struct\x7b".toList [.keyword .structWord, .opener .brace] :=
    (Keyword.isPart .structWord).append hbrace (by rintro d ⟨⟩; decide)
  have hclose : IsPart ['\x7d'] [.closer .brace] := .single rfl rfl
  obtain ⟨ks, hpart, hbalanced⟩ := ha
  refine ⟨⟨_, hopen.space (hpart.space hclose), .single rfl (by simp) (.group hbalanced .none)⟩, ?_⟩
  rintro c ⟨⟩
  exact nofun

theorem isTypeText_struct_empty : IsTypeText "struct\x7b\x7d".toList := by
  have hclose : IsPart ['\x7d'] [.closer .brace] := .single rfl rfl
  have hbraces : IsPart ['\x7b', '\x7d'] [.opener .brace, .closer .brace] := .cons rfl rfl rfl hclose
  exact ⟨⟨_, (Keyword.isPart .structWord).append hbraces (by rintro d ⟨⟩; decide),
    .single rfl (by simp) (.group .none .none)⟩, by rintro c ⟨⟩; decide⟩

/-- A type that can be written is written as a text that stands for itself. -/
theorem Ty.IsWritten.isTypeText {t : Ty} (h : t.IsWritten q) : IsTypeText (t.display q).toList := by
  induction h with
  | @primitive p h =>
    by_cases hp : p = .pointer
    · subst hp
      exact h rfl
    · have hname : Ty.display q (.primitive p) = p.name := by cases p <;> first | rfl | exact absurd rfl hp
      rw [hname]
      exact .of_identifier (Primitive.isIdentifier hp)
  | @named n args t hn hargs ht ihargs iht =>
    cases args with
    | nil => exact hn
    | cons a args =>
      have hinner := isInner_displayMore (ihargs a (by simp)).inner fun b (hb : b ∈ args) => ihargs b (by simp [hb])
      simpa [Ty.display, Bracket.left, Bracket.right] using hn.append_brackets .square hinner
  | unseen hn => exact hn
  | pointer ht ih => simpa [Ty.display] using ih.star
  | slice ht ih => simpa [Ty.display] using ih.slice
  | @array l t hl ht ih =>
    have hlength : IsLengthText l.text.toList := by
      cases l with
      | known n =>
        have hdigits : (Length.known n).text.toList = Nat.toDigits 10 n := by simp [Length.text]
        rw [hdigits]
        exact isLengthText_digits Nat.toDigits_ne_nil fun d => Nat.isDigit_of_mem_toDigits (by decide) (by decide)
      | symbolic text => exact hl
    simpa [Ty.display] using hlength.square ih
  | map hk hv ihk ihv => simpa [Ty.display] using isTypeText_map ihk.inner ihv
  | chan ht ih => simpa [Ty.display] using isTypeText_chan _ ih
  | @struct fields hnames htypes htags ih =>
    cases fields with
    | nil =>
      exact isTypeText_struct_empty
    | cons f fields =>
      have hfield : ∀ g ∈ f :: fields, IsInner (Ty.displayField q g).toList := fun g hg =>
        isInner_displayField (hnames g hg) (ih g hg) (htags g hg)
      have hinner := isInner_displayMoreFields (hfield f (by simp))
        fun g (hg : g ∈ fields) => hfield g (List.mem_cons_of_mem f hg)
      simpa [Ty.display] using isTypeText_struct hinner
  | interface h => exact h
  | func h => exact h
  | param h => exact .of_identifier h

end

end LiteralFill
