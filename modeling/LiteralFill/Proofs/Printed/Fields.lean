import LiteralFill.Proofs.Printed.Reading
import LiteralFill.Proofs.Reading.Fields

/-!
The fields of a printable struct type are read one after the other up to its closing brace, and with them the words
of every printable type are read as a type.
-/

namespace LiteralFill

open Reader
open TypeExpr (argLexemes moreLexemes bodyLexemes fieldLexemes moreFieldLexemes)

section

variable {s : Lexed} (hm : s.IsMatched) {inner : Reader TypeExpr} {n : Nat} (hinner : ReadsBack s inner n)

include hm hinner

/-! ## Embedded fields -/

omit hm hinner in
/-- No field ends where a type begins. -/
theorem endsField_of_type {t : TypeExpr} (ht : t.IsPrintable) {i : Nat} {rest : List Word}
    (hw : s.wordsFrom i = words t.lexemes ++ rest) {rbrace : Nat} (hlt : i < rbrace) : endsField s rbrace i = false := by
  have hkind := ht.kindAt_eq hw
  have hle : ¬ rbrace ≤ i := by omega
  cases t with
  | chan d u => cases d <;> simp [endsField, hle, hkind, TypeExpr.firstKind]
  | _ => simp [endsField, hle, hkind, TypeExpr.firstKind]

omit hinner in
/-- A name with brackets and then a type behind it is not embedded. -/
theorem isEmbeddedAt_brackets {us : List Word} (hu : AreBalanced us) {t : TypeExpr} (ht : t.IsPrintable)
    {i rbrace : Nat} {rest : List Word}
    (hw : s.wordsFrom (i + 1) =
      (.opener .square, "[") :: (us ++ (.closer .square, "]") :: (words t.lexemes ++ rest)))
    (hlt : i + 1 + 1 + us.length + 1 < rbrace) : isEmbeddedAt s rbrace i = false := by
  have hclose := hm.closerOf_words hu hw
  obtain ⟨hopen, -, hinside⟩ := Lexed.wordsFrom_cons hw
  obtain ⟨-, -, hnext⟩ := Lexed.wordsFrom_cons (Lexed.wordsFrom_append us hinside)
  simp only [isEmbeddedAt, hopen, hclose]
  exact endsField_of_type ht hnext hlt

omit hinner in
/-- A name with a type behind it is not embedded. -/
theorem isEmbeddedAt_named {t : TypeExpr} (ht : t.IsPrintable) {i rbrace : Nat} {rest : List Word}
    (hw : s.wordsFrom (i + 1) = words t.lexemes ++ rest) (hle : i + 1 + (words t.lexemes).length ≤ rbrace) :
    isEmbeddedAt s rbrace i = false := by
  have hkind := ht.kindAt_eq hw
  have hpos := ht.words_pos
  have hend := endsField_of_type ht hw (show i + 1 < rbrace by omega)
  cases ht with
  | @slice t ht =>
    have := ht.words_pos
    have hw' : s.wordsFrom (i + 1) =
        (.opener .square, "[") :: ([] ++ (.closer .square, "]") :: (words t.lexemes ++ rest)) := by
      simpa [TypeExpr.lexemes] using hw
    refine isEmbeddedAt_brackets hm .nil ht hw' ?_
    simp [TypeExpr.lexemes] at hle ⊢
    omega
  | @array k t hk ht =>
    have := ht.words_pos
    have hnumber : AreBalanced [(.number, String.ofList (Nat.toDigits 10 k))] := .cons rfl .nil
    have hw' : s.wordsFrom (i + 1) = (.opener .square, "[") ::
        ([(.number, String.ofList (Nat.toDigits 10 k))] ++ (.closer .square, "]") :: (words t.lexemes ++ rest)) := by
      simpa [TypeExpr.lexemes, WrittenLength.lexemes] using hw
    refine isEmbeddedAt_brackets hm hnumber ht hw' ?_
    simp [TypeExpr.lexemes, WrittenLength.lexemes] at hle ⊢
    omega
  | @chan d t ht => cases d <;> simpa [isEmbeddedAt, hkind, TypeExpr.firstKind] using hend
  | _ => simpa [isEmbeddedAt, hkind, TypeExpr.firstKind] using hend

omit hinner in
/-- A name that the field ends behind is embedded. -/
theorem isEmbeddedAt_name {package : Option String} {name : String} {args : List TypeExpr}
    (hargs : ∀ a ∈ args, a.IsPrintable) {i rbrace : Nat} {rest : List Word}
    (hw : s.wordsFrom i = words (TypeExpr.name package name args).lexemes ++ rest) (hrest : EndsType rest)
    (hend : endsField s rbrace (i + (words (TypeExpr.name package name args).lexemes).length)) :
    isEmbeddedAt s rbrace i := by
  cases package with
  | some p =>
    have hw' : s.wordsFrom i = (.ident, p) :: (.dot, ".") :: (.ident, name) :: (words (argLexemes args) ++ rest) := by
      simpa [TypeExpr.lexemes, nameLexemes] using hw
    obtain ⟨-, -, hdot⟩ := Lexed.wordsFrom_cons hw'
    simp [isEmbeddedAt, (Lexed.wordsFrom_cons hdot).1]
  | none =>
    have hw' : s.wordsFrom i = (.ident, name) :: (words (argLexemes args) ++ rest) := by
      simpa [TypeExpr.lexemes, nameLexemes] using hw
    obtain ⟨-, -, hnext⟩ := Lexed.wordsFrom_cons hw'
    cases args with
    | nil =>
      obtain ⟨hdot, hopen⟩ := hrest.kindAt_ne hnext
      simp only [TypeExpr.lexemes, nameLexemes, argLexemes, words_token, words_nil, List.append_nil,
        List.length_singleton] at hend
      rw [isEmbeddedAt]
      split
      · rfl
      · next h => exact absurd h hopen
      · exact hend
    | cons a more =>
      have hclose := closerOf_args hm hargs hnext
      have hopen : s.kindAt (i + 1) = some (.opener .square) := by
        rw [argLexemes, words_token, List.cons_append] at hnext
        exact (Lexed.wordsFrom_cons hnext).1
      have hlength : i + 1 + 1 + (words a.lexemes).length + (words (moreLexemes more)).length + 1 =
          i + (words (TypeExpr.name none name (a :: more)).lexemes).length := by
        simp [TypeExpr.lexemes, nameLexemes, argLexemes]
        omega
      simp only [isEmbeddedAt, hopen, hclose, hlength]
      exact hend

/-! ## The names and the type of a field -/

/-- The names and the type of a field are read up to its tag, or its end. -/
def ReadsHead (s : Lexed) (inner : Reader TypeExpr) (rbrace : Nat) (f : FieldDecl TypeExpr) (i : Nat)
    (ds : List Diagnostic) : Prop :=
  ∃ e', readFieldHead s inner rbrace ⟨i, ds⟩ = (some (f.names, e'),
      ⟨i + (words (fieldNameLexemes f.names)).length + (words f.type.lexemes).length, ds⟩) ∧
    e'.move noPlace = f.type.reading

section

variable {t : TypeExpr} (htype : t.IsPrintable) (hlen : (words t.lexemes).length ≤ n) {i rbrace : Nat}
  {rest : List Word} (hrest : EndsType rest) (tag : Option String) (span : Span) (ds : List Diagnostic)

include htype hlen hrest

theorem readFieldHead_named {name : String} (hw : s.wordsFrom i = (.ident, name) :: (words t.lexemes ++ rest))
    (hle : i + 1 + (words t.lexemes).length ≤ rbrace) : ReadsHead s inner rbrace ⟨[name], t, tag, span⟩ i ds := by
  obtain ⟨hident, hname, hnext⟩ := Lexed.wordsFrom_cons hw
  have hcomma := htype.kindAt_ne hnext (k := .comma) rfl
  have hmore : ∀ fuel, readMoreNames s fuel [name] ⟨i + 1, ds⟩ = (some [name], ⟨i + 1, ds⟩) := by
    intro fuel
    cases fuel with
    | zero => rfl
    | succ fuel => simp [readMoreNames, hcomma]
  obtain ⟨e', hread, hmoved⟩ := hinner ds htype hlen hnext hrest
  refine ⟨e', ?_, hmoved⟩
  rw [readFieldHead_eq]
  simp only [hident, isEmbeddedAt_named hm htype hnext hle, hname]
  simp [bind_some (hmore _), bind_some hread, fieldNameLexemes]

theorem readFieldHead_embedded (hname : t.isName) (hw : s.wordsFrom i = words t.lexemes ++ rest)
    (hend : endsField s rbrace (i + (words t.lexemes).length)) :
    ReadsHead s inner rbrace ⟨[], t, tag, span⟩ i ds := by
  have hident : s.kindAt i = some .ident := by
    rw [htype.kindAt_eq hw, TypeExpr.firstKind_of_isName hname]
  have hembedded : isEmbeddedAt s rbrace i := by
    cases htype with
    | name hpackage hname hargs => exact isEmbeddedAt_name hm hargs hw hrest hend
    | _ => cases hname
  obtain ⟨e', hread, hmoved⟩ := hinner ds htype hlen hw hrest
  refine ⟨e', ?_, hmoved⟩
  rw [readFieldHead_eq]
  simp [hident, hembedded, bind_some hread, fieldNameLexemes]

omit hm in
theorem readFieldHead_pointer (hw : s.wordsFrom i = (.star, "*") :: (words t.lexemes ++ rest)) :
    ReadsHead s inner rbrace ⟨[], .pointer t, tag, span⟩ i ds := by
  obtain ⟨hstar, -, hnext⟩ := Lexed.wordsFrom_cons hw
  obtain ⟨e', hread, hmoved⟩ := hinner ds htype hlen hnext hrest
  refine ⟨.pointer e', ?_, by rw [TypeExpr.move, TypeExpr.reading, hmoved]⟩
  rw [readFieldHead_eq]
  simp only [hstar]
  rw [bind_some hread]
  simp [TypeExpr.lexemes, fieldNameLexemes]
  omega

end

theorem readFieldHead_words {f : FieldDecl TypeExpr} (hhead : f.IsHeaded) (htype : f.type.IsPrintable)
    (hlen : (words f.type.lexemes).length ≤ n) {i rbrace : Nat} {rest : List Word}
    (hw : s.wordsFrom i = words (fieldNameLexemes f.names) ++ (words f.type.lexemes ++ rest))
    (hrest : EndsType rest)
    (hend : endsField s rbrace (i + (words (fieldNameLexemes f.names)).length + (words f.type.lexemes).length))
    (hle : i + (words (fieldNameLexemes f.names)).length + (words f.type.lexemes).length ≤ rbrace)
    (ds : List Diagnostic) : ReadsHead s inner rbrace f i ds := by
  obtain ⟨names, t, tag, span⟩ := f
  cases hhead with
  | @named name hnames hname =>
    obtain rfl : names = [name] := hnames
    simp only [fieldNameLexemes, words_token, words_space, words_nil, List.singleton_append,
      List.length_singleton] at hw hle
    exact readFieldHead_named hm hinner htype hlen hrest tag span ds hw hle
  | embedded hnames hname =>
    obtain rfl : names = [] := hnames
    exact readFieldHead_embedded hm hinner htype hlen hrest tag span ds hname hw hend
  | @pointer u hnames htype' hname =>
    obtain rfl : names = [] := hnames
    obtain rfl : t = .pointer u := htype'
    cases htype with
    | pointer hu =>
      have hw' : s.wordsFrom i = (.star, "*") :: (words u.lexemes ++ rest) := by
        simpa [TypeExpr.lexemes, fieldNameLexemes] using hw
      refine readFieldHead_pointer hinner hu ?_ hrest tag span ds hw'
      simp [TypeExpr.lexemes] at hlen
      omega

/-! ## Fields -/

omit hm hinner in
/-- The tag of a field is read, if it has one. -/
theorem readTag_words {tag : Option String} {i rbrace : Nat} {w : Word} {ws : List Word}
    (hw : s.wordsFrom i = words (tagLexemes tag) ++ w :: ws) (hend : w.1 = .semicolon ∨ w.1 = .closer .brace)
    (hle : i + (words (tagLexemes tag)).length ≤ rbrace) (ds : List Diagnostic) :
    readTag s rbrace ⟨i, ds⟩ = (some tag, ⟨i + (words (tagLexemes tag)).length, ds⟩) := by
  rw [readTag, index_bind]
  cases tag with
  | none =>
    have hkind := (Lexed.wordsFrom_cons hw).1
    have hno : ¬ ((decide (i < rbrace) &&
        (decide (s.kindAt i = some .string) || decide (s.kindAt i = some .rawString))) = true) := by
      rcases hend with hend | hend <;> simp [hkind, hend]
    simp only [hno]
    rfl
  | some text =>
    have hw' : s.wordsFrom i = (literalKind text, text) :: w :: ws := by simpa [tagLexemes] using hw
    obtain ⟨hkind, hname, -⟩ := Lexed.wordsFrom_cons hw'
    have hlt : i < rbrace := by
      simp [tagLexemes] at hle
      omega
    have hyes : (decide (i < rbrace) &&
        (decide (s.kindAt i = some .string) || decide (s.kindAt i = some .rawString))) = true := by
      rcases literalKind_cases text with h | h <;> simp [hlt, hkind, h]
    simp only [hyes, ↓reduceIte, skip_bind, hname]
    simp [tagLexemes]

omit hm hinner in
/-- No type goes on with a tag or with what ends a field. -/
theorem endsType_tag (tag : Option String) {w : Word} (ws : List Word)
    (hend : w.1 = .semicolon ∨ w.1 = .closer .brace) : EndsType (words (tagLexemes tag) ++ w :: ws) := by
  cases tag with
  | none => rcases hend with h | h <;> exact endsType_cons ws (by rw [h]; nofun) (by rw [h]; nofun)
  | some text => rcases literalKind_cases text with h | h <;> simp [EndsType, tagLexemes, h]

omit hm hinner in
/-- A field may end before its tag, or before what ends it. -/
theorem endsField_tag {tag : Option String} {i rbrace : Nat} {w : Word} {ws : List Word}
    (hw : s.wordsFrom i = words (tagLexemes tag) ++ w :: ws)
    (hend : w.1 = .semicolon ∨ i + (words (tagLexemes tag)).length = rbrace) : endsField s rbrace i := by
  have hkind := s.kindAt_eq_head i
  rw [hw] at hkind
  cases tag with
  | none =>
    rcases hend with h | h
    · simp [endsField, hkind, tagLexemes, h]
    · simp [tagLexemes] at h
      simp [endsField, h]
  | some text => rcases literalKind_cases text with h | h <;> simp [endsField, hkind, tagLexemes, h]

/-- A field is read with what ends it. -/
theorem readField_words {f : FieldDecl TypeExpr} (hhead : f.IsHeaded) (htype : f.type.IsPrintable)
    (hspan : f.span = .empty 0) (hlen : (words f.type.lexemes).length ≤ n) {i : Nat} (rbrace : Nat) {w : Word}
    {ws : List Word} (hw : s.wordsFrom i = words (fieldLexemes f) ++ w :: ws)
    (hend : w.1 = .semicolon ∧ i + (words (fieldLexemes f)).length < rbrace ∨
      w.1 = .closer .brace ∧ i + (words (fieldLexemes f)).length = rbrace) (ds : List Diagnostic) :
    ∃ d, readField s inner rbrace ⟨i, ds⟩ = (some (some d),
        ⟨i + (words (fieldLexemes f)).length + (if w.1 = .semicolon then 1 else 0), ds⟩) ∧
      TypeExpr.moveFields noPlace [d] = TypeExpr.readingFields [f] := by
  obtain ⟨names, t, tag, span⟩ := f
  obtain rfl : span = .empty 0 := hspan
  have hlength : (words (fieldLexemes ⟨names, t, tag, .empty 0⟩)).length =
      (words (fieldNameLexemes names)).length + (words t.lexemes).length + (words (tagLexemes tag)).length := by
    simp only [fieldLexemes, words_append, List.length_append]
    omega
  rw [hlength, ← Nat.add_assoc, ← Nat.add_assoc] at hend ⊢
  have hw' : s.wordsFrom i =
      words (fieldNameLexemes names) ++ (words t.lexemes ++ (words (tagLexemes tag) ++ w :: ws)) := by
    simpa [fieldLexemes] using hw
  have htag := Lexed.wordsFrom_append _ (Lexed.wordsFrom_append _ hw')
  have hlast : w.1 = .semicolon ∨ w.1 = .closer .brace := hend.imp And.left And.left
  have hends := endsField_tag htag (hend.imp And.left And.right)
  obtain ⟨e', hhead', hmoved⟩ := readFieldHead_words hm hinner hhead htype hlen hw' (endsType_tag tag ws hlast) hends
    (by simp only; omega) ds
  have htag' := readTag_words htag hlast (show _ ≤ rbrace by omega) ds
  have hnext := (Lexed.wordsFrom_cons (Lexed.wordsFrom_append _ htag)).1
  generalize i + (words (fieldNameLexemes names)).length + (words t.lexemes).length +
    (words (tagLexemes tag)).length = last at hend htag' hnext ⊢
  refine ⟨⟨names, e', tag, ⟨s.startAt i, s.stopBefore last⟩⟩, ?_, ?_⟩
  · rw [readField, index_bind, optional_bind, hhead']
    simp only [bind_some htag', index_bind]
    rcases hend with ⟨hkind, hlt⟩ | ⟨hkind, rfl⟩
    · rw [if_pos hlt, eat_bind, if_pos (by rw [hnext, hkind]), if_pos hkind]
      rfl
    · rw [if_neg (Nat.lt_irrefl _), if_neg (by simp [hkind])]
      rfl
  · rw [TypeExpr.moveFields, TypeExpr.readingFields, TypeExpr.readingField, hmoved]
    rfl

omit hm hinner in
/-- A field begins with a name or a star. -/
theorem kindAt_of_field {f : FieldDecl TypeExpr} (hhead : f.IsHeaded) (htype : f.type.IsPrintable) {i : Nat}
    {rest : List Word} (hw : s.wordsFrom i = words (fieldLexemes f) ++ rest) :
    s.kindAt i = some .ident ∨ s.kindAt i = some .star := by
  obtain ⟨names, t, tag, span⟩ := f
  cases hhead with
  | @named name hnames =>
    obtain rfl : names = [name] := hnames
    have hw' : s.wordsFrom i = (.ident, name) :: (words t.lexemes ++ (words (tagLexemes tag) ++ rest)) := by
      simpa [fieldLexemes, fieldNameLexemes] using hw
    exact .inl (Lexed.wordsFrom_cons hw').1
  | embedded hnames hname =>
    obtain rfl : names = [] := hnames
    have hw' : s.wordsFrom i = words t.lexemes ++ (words (tagLexemes tag) ++ rest) := by
      simpa [fieldLexemes, fieldNameLexemes] using hw
    left
    rw [htype.kindAt_eq hw', TypeExpr.firstKind_of_isName hname]
  | @pointer u hnames htype' =>
    obtain rfl : names = [] := hnames
    obtain rfl : t = .pointer u := htype'
    have hw' : s.wordsFrom i = words (TypeExpr.pointer u).lexemes ++ (words (tagLexemes tag) ++ rest) := by
      simpa [fieldLexemes, fieldNameLexemes] using hw
    exact .inr (htype.kindAt_eq hw')

omit hm hinner in
theorem words_field_pos {f : FieldDecl TypeExpr} (htype : f.type.IsPrintable) :
    0 < (words (fieldLexemes f)).length := by
  obtain ⟨names, t, tag, span⟩ := f
  have := htype.words_pos
  simp only [fieldLexemes, words_append, List.length_append] at this ⊢
  omega

omit hm hinner in
theorem readFields_end (fuel : Nat) (acc : List (FieldDecl TypeExpr)) (rbrace : Nat) (ds : List Diagnostic) :
    readFields s inner rbrace fuel acc ⟨rbrace, ds⟩ = (some acc, ⟨rbrace, ds⟩) := by
  cases fuel with
  | zero => rfl
  | succ fuel =>
    rw [readFields, index_bind, if_neg (Nat.lt_irrefl _)]
    rfl

/-- The fields up to the closing brace are read. -/
theorem readFields_words {f : FieldDecl TypeExpr} {more : List (FieldDecl TypeExpr)}
    (hheads : ∀ g ∈ f :: more, g.IsHeaded) (htypes : ∀ g ∈ f :: more, g.type.IsPrintable)
    (hspans : ∀ g ∈ f :: more, g.span = .empty 0) (hlen : ∀ g ∈ f :: more, (words g.type.lexemes).length ≤ n)
    {fuel : Nat} (hfuel : more.length < fuel) (acc : List (FieldDecl TypeExpr)) {i : Nat} {text : String}
    {rest : List Word}
    (hw : s.wordsFrom i = words (fieldLexemes f) ++ (words (moreFieldLexemes more) ++ (.closer .brace, text) :: rest))
    (ds : List Diagnostic) :
    let rbrace := i + (words (fieldLexemes f)).length + (words (moreFieldLexemes more)).length
    ∃ fields, readFields s inner rbrace fuel acc ⟨i, ds⟩ = (some (acc ++ fields), ⟨rbrace, ds⟩) ∧
      TypeExpr.moveFields noPlace fields = TypeExpr.readingFields (f :: more) := by
  intro rbrace
  induction more generalizing f fuel acc i with
  | nil =>
    obtain ⟨fuel, rfl⟩ : ∃ m, fuel = m + 1 := ⟨fuel - 1, by omega⟩
    have hf := htypes f (by simp)
    have hpos := words_field_pos hf
    have hsemicolon : s.kindAt i ≠ some .semicolon := by
      rcases kindAt_of_field (hheads f (by simp)) hf hw with h | h <;> rw [h] <;> nofun
    obtain ⟨d, hread, hmoved⟩ := readField_words hm hinner (hheads f (by simp)) hf (hspans f (by simp))
      (hlen f (by simp)) rbrace hw (.inr ⟨rfl, rfl⟩) ds
    refine ⟨[d], ?_, hmoved⟩
    rw [readFields, index_bind, if_pos (by simp only [rbrace]; omega), eat_bind, if_neg hsemicolon]
    simp only [Bool.false_eq_true, ↓reduceIte, bind_some hread, reduceCtorEq, Nat.add_zero]
    exact readFields_end fuel _ rbrace ds
  | cons g more ih =>
    obtain ⟨fuel, rfl⟩ : ∃ m, fuel = m + 1 := ⟨fuel - 1, by omega⟩
    have hw' : s.wordsFrom i = words (fieldLexemes f) ++ (.semicolon, ";") ::
        (words (fieldLexemes g) ++ (words (moreFieldLexemes more) ++ (.closer .brace, text) :: rest)) := by
      simpa [moreFieldLexemes] using hw
    have hrbrace : rbrace = i + (words (fieldLexemes f)).length + 1 + (words (fieldLexemes g)).length +
        (words (moreFieldLexemes more)).length := by
      simp only [rbrace, moreFieldLexemes, words_token, words_space, words_append, List.length_cons,
        List.length_append]
      omega
    clear_value rbrace
    subst hrbrace
    have hf := htypes f (by simp)
    have hsemicolon : s.kindAt i ≠ some .semicolon := by
      rcases kindAt_of_field (hheads f (by simp)) hf hw with h | h <;> rw [h] <;> nofun
    obtain ⟨d, hread, hmoved⟩ := readField_words hm hinner (hheads f (by simp)) hf (hspans f (by simp))
      (hlen f (by simp)) (i + (words (fieldLexemes f)).length + 1 + (words (fieldLexemes g)).length +
        (words (moreFieldLexemes more)).length) hw' (.inl ⟨rfl, by omega⟩) ds
    obtain ⟨-, -, hnext⟩ := Lexed.wordsFrom_cons (Lexed.wordsFrom_append _ hw')
    obtain ⟨fields, hmore, hall⟩ := ih (fun c hc => hheads c (List.mem_cons_of_mem f hc))
      (fun c hc => htypes c (List.mem_cons_of_mem f hc)) (fun c hc => hspans c (List.mem_cons_of_mem f hc))
      (fun c hc => hlen c (List.mem_cons_of_mem f hc)) (by simpa using hfuel) (acc ++ [d]) hnext
    refine ⟨d :: fields, ?_, ?_⟩
    · rw [readFields, index_bind, if_pos (by simp only; omega), eat_bind, if_neg hsemicolon]
      simp only [Bool.false_eq_true, ↓reduceIte, bind_some hread]
      rw [hmore]
      simp
    · have hsplit := TypeExpr.moveFields_append noPlace [d] fields
      rw [hmoved, hall] at hsplit
      exact hsplit

/-- The fields of a struct type are read between its braces. -/
theorem readStruct_words {fields : List (FieldDecl TypeExpr)} (hheads : ∀ f ∈ fields, f.IsHeaded)
    (htypes : ∀ f ∈ fields, f.type.IsPrintable) (hspans : ∀ f ∈ fields, f.span = .empty 0)
    (hlen : ∀ f ∈ fields, (words f.type.lexemes).length ≤ n) {i : Nat} {rest : List Word}
    (hw : s.wordsFrom i = words (TypeExpr.struct fields).lexemes ++ rest) (ds : List Diagnostic) :
    ReadsWords (readStruct s inner) (.struct fields) i ds := by
  have hw' : s.wordsFrom i = (.keyword .structWord, Keyword.text .structWord) :: (.opener .brace, "\x7b") ::
      (words (bodyLexemes fields) ++ (.closer .brace, "\x7d") :: rest) := by
    simpa [TypeExpr.lexemes] using hw
  obtain ⟨-, -, hopen⟩ := Lexed.wordsFrom_cons hw'
  obtain ⟨hbrace, -, hbody⟩ := Lexed.wordsFrom_cons hopen
  have hclose : s.closerOf (i + 1) = some (i + 1 + 1 + (words (bodyLexemes fields)).length) := by
    refine hm.closerOf_words (areBalanced_body fun f hf => ?_) hopen
    exact areBalanced_field (hheads f hf) (htypes f hf).areBalanced
  obtain ⟨decls, hread, hall⟩ : ∃ decls,
      readFields s inner (i + 1 + 1 + (words (bodyLexemes fields)).length)
        (i + 1 + 1 + (words (bodyLexemes fields)).length - i) [] ⟨i + 2, ds⟩ =
          (some decls, ⟨i + 1 + 1 + (words (bodyLexemes fields)).length, ds⟩) ∧
        TypeExpr.moveFields noPlace decls = TypeExpr.readingFields fields := by
    cases fields with
    | nil => exact ⟨[], readFields_end _ _ _ _, rfl⟩
    | cons f more =>
      have hlength : i + 1 + 1 + (words (bodyLexemes (f :: more))).length =
          i + 2 + (words (fieldLexemes f)).length + (words (moreFieldLexemes more)).length := by
        simp [bodyLexemes]
        omega
      have hbody' : s.wordsFrom (i + 2) = words (fieldLexemes f) ++
          (words (moreFieldLexemes more) ++ (.closer .brace, "\x7d") :: rest) := by
        simpa [bodyLexemes] using hbody
      have hle := length_le_moreFields more
      rw [hlength]
      exact readFields_words hm hinner hheads htypes hspans hlen (by omega) [] hbody' ds
  refine ⟨.struct decls, ?_, by rw [TypeExpr.move, TypeExpr.reading, hall]⟩
  rw [readStruct, index_bind, skip_bind, if_pos hbrace, hclose, require_some_bind, goTo_bind, bind_some hread, goTo_bind]
  simp [TypeExpr.lexemes]
  omega

/-! ## Whole types -/

/-- What reads back the types inside a type reads back the type. -/
theorem readForm_readsBack : ReadsBack s (readForm s inner) (n + 1) := by
  intro e i rest ds h hlen hw hrest
  have hform : readForm s inner ⟨i, ds⟩ = _ := readForm_eq ⟨i, ds⟩
  simp only [h.kindAt_eq hw] at hform
  cases h with
  | @name package name args hpackage hname hargs =>
    rw [ReadsWords, hform]
    refine readNamed_words hm hinner hargs (fun a ha => ?_) hw hrest ds
    have harg : (words a.lexemes).length < (words (TypeExpr.name package name args).lexemes).length := length_arg ha
    omega
  | @pointer t ht =>
    simp [TypeExpr.lexemes] at hlen
    exact readForm_pointer hinner ht hlen hw hrest ds
  | @slice t ht =>
    simp [TypeExpr.lexemes] at hlen
    rw [ReadsWords, hform]
    exact readSequence_slice hinner ht (by omega) hw hrest ds
  | @array k t hk ht =>
    simp [TypeExpr.lexemes] at hlen
    rw [ReadsWords, hform]
    exact readSequence_array hm hinner hk ht (by omega) hw hrest ds
  | @map k v hk hv =>
    simp [TypeExpr.lexemes] at hlen
    rw [ReadsWords, hform]
    exact readMap_words hinner hk hv (by omega) (by omega) hw hrest ds
  | @chan d t ht =>
    have hlen' : (words t.lexemes).length ≤ n := by
      cases d <;> simp [TypeExpr.lexemes, Direction.lexemes] at hlen <;> omega
    cases d with
    | both =>
      rw [ReadsWords, hform]
      exact readChan_both hinner ht hlen' hw hrest ds
    | send =>
      rw [ReadsWords, hform]
      exact readChan_send hinner ht hlen' hw hrest ds
    | receive => exact readForm_receive hinner ht hlen' hw hrest ds
  | @struct fields hheads htypes htags hspans =>
    rw [ReadsWords, hform]
    refine readStruct_words hm hinner hheads htypes hspans (fun f hf => ?_) hw ds
    have := length_fieldType hf
    omega

end

/-- Readers with a bound on the nesting of types read back types of up to as many words. -/
theorem readTypeWithin_readsBack {s : Lexed} (hm : s.IsMatched) (depth : Nat) :
    ReadsBack s (readTypeWithin s depth) depth := by
  induction depth with
  | zero =>
    intro e i rest ds h hlen
    have := h.words_pos
    omega
  | succ depth ih => exact readForm_readsBack hm ih

end LiteralFill
