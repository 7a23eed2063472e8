import LiteralFill.Proofs.Filled.LengthText
import LiteralFill.Proofs.Reading.Sizes

/-!
Types that are read can be written again. In a text without problems the names in a type are names, the texts that
are kept of it stand for themselves, and so do the lengths of its arrays if they hold nothing but tokens and blanks.
-/

namespace LiteralFill

open Reader

/-! ## Types that can be written -/

mutual

/-- The texts of the lengths in a type, apart from plain numbers. -/
def TypeExpr.lengthTexts : TypeExpr → List String
  | .name _ _ args => argLengthTexts args
  | .pointer t | .slice t | .chan _ t => t.lengthTexts
  | .array (.expression text) t => text :: t.lengthTexts
  | .array .ellipsis t | .array (.number _) t => t.lengthTexts
  | .map k v => k.lengthTexts ++ v.lengthTexts
  | .struct decls => fieldLengthTexts decls
  | .func _ | .interface _ => []

def TypeExpr.argLengthTexts : List TypeExpr → List String
  | [] => []
  | t :: rest => t.lengthTexts ++ argLengthTexts rest

def TypeExpr.fieldLengthTexts : List (FieldDecl TypeExpr) → List String
  | [] => []
  | ⟨_, t, _, _⟩ :: rest => t.lengthTexts ++ fieldLengthTexts rest

end

/-- The lengths in a type hold no comment and no line break. -/
def TypeExpr.HasPlainLengths (t : TypeExpr) : Prop := ∀ text ∈ t.lengthTexts, IsPlain text.toList

instance (t : TypeExpr) : Decidable t.HasPlainLengths :=
  inferInstanceAs (Decidable (∀ text ∈ t.lengthTexts, IsPlain text.toList))

/-- A type whose names are names, and whose other texts stand for themselves. -/
inductive TypeExpr.IsWritten : TypeExpr → Prop
  | name {q : Option String} {name : String} {args : List TypeExpr} (hq : ∀ p ∈ q, IsIdentifier p.toList)
      (hname : IsIdentifier name.toList) (hargs : ∀ t ∈ args, t.IsWritten) : IsWritten (.name q name args)
  | pointer {t : TypeExpr} (ht : t.IsWritten) : IsWritten (.pointer t)
  | slice {t : TypeExpr} (ht : t.IsWritten) : IsWritten (.slice t)
  | array {l : WrittenLength} {t : TypeExpr} (hl : ∀ text, l = .expression text → IsLengthText text.toList)
      (ht : t.IsWritten) : IsWritten (.array l t)
  | map {k v : TypeExpr} (hk : k.IsWritten) (hv : v.IsWritten) : IsWritten (.map k v)
  | chan {d : Direction} {t : TypeExpr} (ht : t.IsWritten) : IsWritten (.chan d t)
  | func {text : String} (h : IsTypeText text.toList) : IsWritten (.func text)
  | struct {decls : List (FieldDecl TypeExpr)} (hnames : ∀ d ∈ decls, ∀ name ∈ d.names, IsIdentifier name.toList)
      (htypes : ∀ d ∈ decls, d.type.IsWritten) (htags : ∀ d ∈ decls, ∀ tag ∈ d.tag, IsInner tag.toList) :
      IsWritten (.struct decls)
  | interface {text : String} (h : IsTypeText text.toList) : IsWritten (.interface text)

namespace TypeExpr

theorem mem_argLengthTexts {args : List TypeExpr} {t : TypeExpr} (ht : t ∈ args) {text : String}
    (h : text ∈ t.lengthTexts) : text ∈ argLengthTexts args := by
  induction args with
  | nil => cases ht
  | cons u rest ih =>
    rw [argLengthTexts, List.mem_append]
    rcases List.mem_cons.mp ht with rfl | ht
    · exact .inl h
    · exact .inr (ih ht)

theorem mem_fieldLengthTexts {decls : List (FieldDecl TypeExpr)} {d : FieldDecl TypeExpr} (hd : d ∈ decls)
    {text : String} (h : text ∈ d.type.lengthTexts) : text ∈ fieldLengthTexts decls := by
  induction decls with
  | nil => cases hd
  | cons e rest ih =>
    obtain ⟨names, type, tag, span⟩ := e
    rw [fieldLengthTexts, List.mem_append]
    rcases List.mem_cons.mp hd with rfl | hd
    · exact .inl h
    · exact .inr (ih hd)

end TypeExpr

/-- Plain lengths make a type one that can be written. -/
def TypeExpr.IsWritable (t : TypeExpr) : Prop := t.HasPlainLengths → t.IsWritten

/-- The names of a field are names, its tag stands for itself, and plain lengths make its type one that can be
written. -/
structure FieldDecl.IsWritable (f : FieldDecl TypeExpr) : Prop where
  names : ∀ name ∈ f.names, IsIdentifier name.toList
  type : f.type.IsWritable
  tag : ∀ tag ∈ f.tag, IsInner tag.toList

namespace TypeExpr.IsWritable

variable {t : TypeExpr}

theorem pointer (h : t.IsWritable) : (TypeExpr.pointer t).IsWritable := fun hplain =>
  .pointer (h hplain)

theorem slice (h : t.IsWritable) : (TypeExpr.slice t).IsWritable := fun hplain =>
  .slice (h hplain)

theorem chan {d : Direction} (h : t.IsWritable) : (TypeExpr.chan d t).IsWritable := fun hplain =>
  .chan (h hplain)

theorem array {l : WrittenLength} (hl : ∀ text, l = .expression text → IsPlain text.toList → IsLengthText text.toList)
    (h : t.IsWritable) : (TypeExpr.array l t).IsWritable := by
  intro hplain
  refine .array (fun text htext => ?_) (h fun text ht => hplain text ?_)
  · subst htext
    exact hl text rfl (hplain text List.mem_cons_self)
  · cases l with
    | expression text => exact List.mem_cons_of_mem _ ht
    | _ => exact ht

theorem map {k v : TypeExpr} (hk : k.IsWritable) (hv : v.IsWritable) : (TypeExpr.map k v).IsWritable := fun hplain =>
  .map (hk fun text ht => hplain text (List.mem_append_left _ ht))
    (hv fun text ht => hplain text (List.mem_append_right _ ht))

theorem name {q : Option String} {name : String} {args : List TypeExpr} (hq : ∀ p ∈ q, IsIdentifier p.toList)
    (hname : IsIdentifier name.toList) (hargs : ∀ t ∈ args, t.IsWritable) : (TypeExpr.name q name args).IsWritable :=
  fun hplain => .name hq hname fun t ht => hargs t ht fun text htext =>
    hplain text (mem_argLengthTexts ht htext)

theorem struct {decls : List (FieldDecl TypeExpr)} (h : ∀ d ∈ decls, d.IsWritable) :
    (TypeExpr.struct decls).IsWritable := fun hplain =>
  .struct (fun d hd => (h d hd).names) (fun d hd => (h d hd).type fun text htext =>
    hplain text (mem_fieldLengthTexts hd htext)) fun d hd => (h d hd).tag

end TypeExpr.IsWritable

/-! ## Texts of types -/

/-- No operator begins with the same character as a reserved word. -/
theorem IsPart.begins_keyword {text : List Char} {w : Keyword} {ks : List TokenKind}
    (h : IsPart text (.keyword w :: ks)) : ∀ c ∈ text.head?, c ≠ '=' := by
  rintro c hc rfl
  obtain ⟨cs, rfl⟩ := List.head?_eq_some_iff.mp hc
  obtain ⟨l, ls, hlexemes, htoken⟩ := h.begins
  have hkind : l.kind = .token (.keyword w) := by
    have hkinds := h.kinds
    rw [kindsWithin, hlexemes, tokensWithin_cons] at hkinds
    obtain ⟨kind, text⟩ := l
    cases kind with
    | token k => exact congrArg _ (List.cons.inj hkinds).1
    | _ => cases htoken
  rw [lexemes_cons, List.cons.injEq] at hlexemes
  obtain ⟨rfl, -⟩ := hlexemes
  have hfixed : BeginsFixed '=' cs := by
    simp [BeginsFixed]
    decide
  have hnone : ∀ e ∈ fixedTokens, ∀ w, e.2 ≠ .keyword w := by
    simp [fixedTokens]
  simp only [lexemeAt_fixed hfixed] at hkind
  cases hf : fixedToken ('=' :: cs) with
  | none => simp [hf] at hkind
  | some e =>
    obtain ⟨kind, n⟩ := e
    simp only [hf, LexemeKind.token.injEq] at hkind
    exact hnone _ (fixedToken_text hf) w hkind

theorem TokenKind.isBracket_of_isPlain {k : TokenKind} (h : k.isPlain) : k.isBracket = false := by
  cases k <;> first | rfl | cases h

/-- The tokens of a type are those of a value. -/
theorem Items.isValue {s : Lexed} (hm : s.IsMatched) (hp : s.IsPaired) {i j : Nat} (h : Items s i j) :
    IsValue (s.kindsBetween i j) := by
  induction h with
  | none =>
    rw [Lexed.kindsBetween_self]
    exact .none
  | plain hk hplain rest ih =>
    rw [Lexed.kindsBetween_cons hk (rest.le hm)]
    refine .single (TokenKind.isBracket_of_isPlain hplain) ?_ ih
    rintro rfl
    cases hplain
  | group hk hb hc rest ih =>
    obtain ⟨-, -, b, hopen, hclose⟩ := hm.closer_spec hc
    rw [hk] at hopen
    cases hopen
    rw [hm.kindsBetween_group hk hc hclose (rest.le hm)]
    exact .group (Lexed.IsPaired.isBalanced_inside hm hp hc) ih
  | body hk hw hb hc rest ih =>
    obtain ⟨hlt, -, b, hopen, hclose⟩ := hm.closer_spec hc
    rw [hb] at hopen
    cases hopen
    have hle := rest.le hm
    rw [Lexed.kindsBetween_cons hk (by omega), hm.kindsBetween_group hb hc hclose hle]
    exact .single rfl (by simp) (.group (Lexed.IsPaired.isBalanced_inside hm hp hc) ih)

section

variable {s : Lexed} (hs : s.IsRead) (hsound : ∀ l ∈ lexemes s.text, l.isSound)
include hs hsound

/-- The text of a token that is no semicolon. -/
theorem Lexed.IsRead.isPart_name {i : Nat} {k : TokenKind} (hk : s.kindAt i = some k) (hne : k ≠ .semicolon) :
    IsPart (s.nameAt i).toList [k] := by
  obtain ⟨t, ht⟩ := Lexed.exists_token (Lexed.kindAt_lt hk)
  obtain rfl := Lexed.kind_of_token ht hk
  obtain ⟨before, after, hlexemes, -, -⟩ := hs.split hsound ht (hs.text_ne_nil ht hne)
  have hone : lexemes t.text = [⟨.token t.kind, t.text⟩] := by
    rw [← List.singleton_append] at hlexemes
    simpa using lexemes_between hlexemes hsound
  have hname : (s.nameAt i).toList = t.text := by simp [Lexed.nameAt, ht, Token.name]
  rw [hname]
  refine ⟨fun l hl => hsound l ?_, ⟨_, _, hone, rfl⟩, ?_, ?_⟩
  · rw [hone, List.mem_singleton] at hl
    rw [hlexemes, hl]
    simp
  · simp [hone, Lexeme.isToken]
  · simp [kindsWithin, hone, tokensWithin_cons, lexemeTokens]

variable (hp : s.IsPaired)
include hp

/-- The text of a type that begins with a reserved word. -/
theorem isTypeText_of_items {i j : Nat} {w : Keyword} (hk : s.kindAt i = some (.keyword w)) (hij : i < j)
    (h : Items s i j) (hend : s.endsType j) : IsTypeText (slice s.text ⟨s.startAt i, s.stopBefore j⟩) := by
  obtain ⟨j, rfl⟩ : ∃ n, j = n + 1 := ⟨j - 1, by omega⟩
  obtain ⟨t, ht⟩ := Lexed.exists_token (Lexed.kindAt_lt hk)
  have hlast : ∃ k, s.kindAt j = some k ∧ k ≠ .semicolon := by
    rcases hend with hend | ⟨b, hend⟩
    · exact ⟨_, hend, by decide⟩
    · exact ⟨_, hend, by simp⟩
  obtain ⟨k, hkj, hne⟩ := hlast
  obtain ⟨u, hu⟩ := Lexed.exists_token (Lexed.kindAt_lt hkj)
  have hkind : ∀ {n : Nat} {v : Token} {l : TokenKind}, s.tokens[n]? = some v → s.kindAt n = some l → v.kind = l := by
    intro n v l hv hl
    simpa [Lexed.kindAt, hv] using hl
  have hpart := hs.isPart hsound (Nat.le_of_lt_succ hij) ht (hs.text_ne_nil ht (by simp [hkind ht hk])) hu
    (hs.text_ne_nil hu (by rwa [hkind hu hkj]))
  have hvalue := h.isValue hs.matched hp
  refine ⟨⟨_, hpart, hvalue⟩, ?_⟩
  rw [Lexed.kindsBetween_cons hk hij] at hpart
  exact hpart.begins_keyword

/-! ## Readers -/

variable {inner : Reader TypeExpr} (hinner : inner.Yields (·.IsWritable))
include hinner

omit hp in
theorem readNamed_writable {c : Cursor} (hk : s.kindAt c.index = some .ident) {t : TypeExpr}
    (h : (readNamed s inner c).1 = some t) : t.IsWritable := by
  rw [readNamed, index_bind] at h
  split at h
  · next hcond =>
    simp only [Bool.and_eq_true, decide_eq_true_eq] at hcond
    refine Yields.bind (readTypeArgs_yields hinner) (fun args hargs => .give ?_) _ t h
    exact .name (by rintro p ⟨⟩; exact hs.isIdentifier hsound hk) (hs.isIdentifier hsound hcond.2) hargs
  · refine Yields.bind (readTypeArgs_yields hinner) (fun args hargs => .give ?_) _ t h
    exact .name (by simp) (hs.isIdentifier hsound hk) hargs

omit hs hsound hp hinner in
theorem readLength_expression {o close : Nat} {text : String}
    (h : readLength s o close = some (.expression text)) :
    o + 1 < close ∧ text.toList = slice s.text ⟨s.startAt (o + 1), s.stopAt (close - 1)⟩ := by
  unfold readLength at h
  split at h
  · cases h
  · split at h
    · obtain ⟨n, -, hn⟩ := Option.map_eq_some_iff.mp h
      cases hn
    · split at h
      · cases h
        exact ⟨‹_›, String.toList_ofList⟩
      · cases h

theorem readSequence_writable {c : Cursor} {t : TypeExpr} (h : (readSequence s inner c).1 = some t) :
    t.IsWritable := by
  rw [readSequence, index_bind] at h
  split at h
  · exact Yields.bind hinner (fun t ht => .give ht.slice) _ t h
  · cases hclose : s.closerOf c.index with
    | none =>
      rw [hclose, require_none_bind] at h
      cases h
    | some close =>
      rw [hclose, require_some_bind] at h
      cases hlength : readLength s c.index close with
      | none =>
        rw [hlength, require_none_bind] at h
        cases h
      | some length =>
        rw [hlength, require_some_bind, goTo_bind] at h
        refine Yields.bind hinner (fun t ht => .give (.array ?_ ht)) _ t h
        rintro text rfl hplain
        obtain ⟨hlt, htext⟩ := readLength_expression hlength
        rw [htext] at hplain ⊢
        exact hs.isLengthText hsound hp hclose hlt hplain

omit hs hsound hp in
theorem readMap_writable : (readMap s inner).Yields (·.IsWritable) :=
  .after fun _ => .after fun _ => hinner.bind fun _ hk => .after fun _ => hinner.bind fun _ hv => .give (hk.map hv)

omit hs hsound hp in
theorem readChan_writable : (readChan s inner).Yields (·.IsWritable) :=
  .after fun _ => .after fun _ => hinner.bind fun _ ht => .give ht.chan

omit hs hsound hp in
theorem readParenthesized_writable : (readParenthesized s inner).Yields (·.IsWritable) :=
  .after fun _ => hinner.bind fun _ ht => .after fun _ => .give ht

omit hinner in
theorem readFunc_writable (hreads : ReadsTypes s inner) {c : Cursor}
    (hk : s.kindAt c.index = some (.keyword .funcWord)) {t : TypeExpr} (h : (readFunc s inner c).1 = some t) :
    t.IsWritable := by
  obtain ⟨hlt, hitems, hend⟩ := (readFunc_reads hs.matched hreads hk).2 (by rw [h]; rfl)
  have htext : t = .func (sliceText s.text ⟨s.startAt c.index, s.stopBefore (readFunc s inner c).2.index⟩) := by
    rw [readFunc, index_bind, skip_bind] at h ⊢
    by_cases hb : s.kindAt (c.index + 1) = some (.opener .paren)
    · simp only [hb, ↓reduceIte, skipBrackets_bind] at h ⊢
      cases hclose : s.closerOf (c.index + 1) with
      | none => simp [hclose] at h
      | some close =>
        simp only [hclose] at h ⊢
        rw [bind_apply] at h ⊢
        generalize skipResult s inner ⟨close + 1, c.diagnostics⟩ = r at h ⊢
        obtain ⟨_ | _, c'⟩ := r
        · cases h
        · cases h
          rfl
    · simp [hb] at h
  rw [htext]
  exact fun _ => .func (by rw [sliceText, String.toList_ofList]; exact isTypeText_of_items hs hsound hp hk hlt hitems hend)

omit hinner in
theorem readInterface_writable {c : Cursor} (hk : s.kindAt c.index = some (.keyword .interfaceWord)) {t : TypeExpr}
    (h : (readInterface s c).1 = some t) : t.IsWritable := by
  obtain ⟨hlt, hitems, hend⟩ := (readInterface_reads hs.matched hk).2 (by rw [h]; rfl)
  have htext : t = .interface (sliceText s.text ⟨s.startAt c.index, s.stopBefore (readInterface s c).2.index⟩) := by
    rw [readInterface, index_bind, skip_bind] at h ⊢
    by_cases hb : s.kindAt (c.index + 1) = some (.opener .brace)
    · simp only [hb, ↓reduceIte, skipBrackets_bind] at h ⊢
      cases hclose : s.closerOf (c.index + 1) with
      | none => simp [hclose] at h
      | some close =>
        simp only [hclose] at h ⊢
        cases h
        rfl
    · simp [hb] at h
  rw [htext]
  exact fun _ => .interface (by
    rw [sliceText, String.toList_ofList]
    exact isTypeText_of_items hs hsound hp hk hlt hitems hend)

/-! ### Struct types -/

omit hp hinner in
theorem readMoreNames_identifiers (fuel : Nat) {names : List String} (hnames : ∀ name ∈ names, IsIdentifier name.toList) :
    (readMoreNames s fuel names).Yields fun names => ∀ name ∈ names, IsIdentifier name.toList := by
  induction fuel generalizing names with
  | zero => exact .give hnames
  | succ fuel ih =>
    intro c found h
    rw [readMoreNames, peek_bind, peekAt_bind] at h
    split at h
    · next hcond =>
      simp only [Bool.and_eq_true, decide_eq_true_eq] at hcond
      refine ih (fun name hname => ?_) _ found h
      rcases List.mem_append.mp hname with hname | hname
      · exact hnames name hname
      · rw [List.mem_singleton.mp hname]
        exact hs.isIdentifier hsound hcond.2
    · cases h
      exact hnames

omit hp in
theorem readFieldHead_writable (rbrace : Nat) : (readFieldHead s inner rbrace).Yields fun head =>
    (∀ name ∈ head.1, IsIdentifier name.toList) ∧ head.2.IsWritable := by
  have htype {f : TypeExpr → TypeExpr} (hf : ∀ t : TypeExpr, t.IsWritable → (f t).IsWritable) {names : List String}
      (hnames : ∀ name ∈ names, IsIdentifier name.toList) : Yields (inner >>= fun t => give (names, f t)) fun head =>
      (∀ name ∈ head.1, IsIdentifier name.toList) ∧ head.2.IsWritable :=
    hinner.bind fun t ht => .give ⟨hnames, hf t ht⟩
  intro c head h
  rw [readFieldHead_eq] at h
  split at h
  · next hk =>
    split at h
    · exact htype (fun _ ht => ht) (by simp) _ head h
    · refine Yields.bind (readMoreNames_identifiers hs hsound _ ?_) (fun _ => htype fun _ ht => ht) _ head h
      intro name hname
      rw [List.mem_singleton.mp hname]
      exact hs.isIdentifier hsound hk
  · exact htype (fun _ => .pointer) (by simp) _ head h
  · cases h

omit hp hinner in
theorem readTag_isInner (rbrace : Nat) : (readTag s rbrace).Yields fun tag => ∀ text ∈ tag, IsInner text.toList := by
  intro c tag h
  rw [readTag, index_bind] at h
  split at h
  · next hcond =>
    cases h
    simp only [Bool.and_eq_true, Bool.or_eq_true, decide_eq_true_eq] at hcond
    rintro text ⟨⟩
    rcases hcond.2 with hk | hk
    · exact ⟨_, hs.isPart_name hsound hk (by decide), .single rfl .none⟩
    · exact ⟨_, hs.isPart_name hsound hk (by decide), .single rfl .none⟩
  · cases h
    simp

omit hp in
theorem readField_writable (rbrace : Nat) :
    (readField s inner rbrace).Yields fun field => ∀ f ∈ field, f.IsWritable := by
  refine .after fun first => (readFieldHead_writable hs hsound hinner rbrace).optional.bind fun head hhead => ?_
  cases head with
  | none => exact .after fun _ => .after fun _ => .after fun _ => .after fun _ => .give (by simp)
  | some head =>
    obtain ⟨hnames, htype⟩ := hhead head rfl
    refine (readTag_isInner hs hsound rbrace).bind fun tag htag => .after fun last => ?_
    have hfield : ∀ f ∈ some (⟨head.1, head.2, tag, ⟨s.startAt first, s.stopBefore last⟩⟩ : FieldDecl TypeExpr),
        f.IsWritable := by
      rintro _ ⟨⟩
      exact ⟨hnames, htype, htag⟩
    dsimp only
    split
    · refine .after fun semicolon => ?_
      split
      · exact .give hfield
      · exact .after fun _ => .after fun _ => .give hfield
    · exact .give hfield

omit hp in
theorem readStruct_writable : (readStruct s inner).Yields (·.IsWritable) := by
  refine .after fun i => .after fun _ => ?_
  split
  · exact .after fun rbrace => .after fun _ =>
      (readFields_yields (readField_writable hs hsound hinner _) _ (by simp)).bind fun fields hfields =>
        .after fun _ => .give (.struct hfields)
  · exact .fail

theorem readForm_writable (hreads : ReadsTypes s inner) : (readForm s inner).Yields (·.IsWritable) := by
  intro c t h
  rw [readForm_eq] at h
  split at h
  case h_1 hk => exact readNamed_writable hs hsound hinner hk h
  case h_2 hk => exact Yields.bind hinner (fun t ht => .give ht.pointer) _ t h
  case h_3 hk => exact readSequence_writable hs hsound hp hinner h
  case h_4 hk => exact readMap_writable hinner c t h
  case h_5 hk => exact readChan_writable hinner c t h
  case h_6 hk =>
    split at h
    · exact Yields.bind hinner (fun t ht => .give ht.chan) _ t h
    · cases h
  case h_7 hk => exact readFunc_writable hs hsound hp hreads hk h
  case h_8 hk => exact readStruct_writable hs hsound hinner c t h
  case h_9 hk => exact readInterface_writable hs hsound hp hk h
  case h_10 hk => exact readParenthesized_writable hinner c t h
  case h_11 => cases h

omit hinner in
theorem readTypeWithin_writable (depth : Nat) : Yields (readTypeWithin s depth) (·.IsWritable) := by
  induction depth with
  | zero => rintro c t ⟨⟩
  | succ depth ih => exact readForm_writable hs hsound hp ih (readTypeWithin_reads hs.matched depth)

omit hinner in
/-- Every type that is read can be written, if its lengths are plain. -/
theorem readType_writable : (readType s).Yields (·.IsWritable) := readTypeWithin_writable hs hsound hp _

end

end LiteralFill
