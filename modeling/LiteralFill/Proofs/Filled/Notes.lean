import LiteralFill.Proofs.CommentsKept
import LiteralFill.Proofs.Filled.Lines

/-!
Comments between the tokens of a filled literal: those on lines of their own, and those behind an element on
its line. Whole comments are found again as they were written.
-/

namespace LiteralFill

/-! ## Whole comments -/

/-- A text that is one comment: what is read as one, and recorded without a change. A block comment that begins
with the characters of its own end is recorded short. -/
inductive IsNote : List Char → Prop
  | line {body : List Char} (hbody : ∀ d ∈ body, d ≠ '\n') (hends : trimEnd ('/' :: '/' :: body) = '/' :: '/' :: body) :
      IsNote ('/' :: '/' :: body)
  | block {body : List Char} (hclose : throughClose body = some body.length) (hslash : body.head? ≠ some '/') :
      IsNote ('/' :: '*' :: body)

/-- The texts of comments behind an element: block comments one after the other, with any comment as the last,
all on one line. -/
inductive IsTrail : List Char → Prop
  | last {text : List Char} (h : IsNote text) (hline : '\n' ∉ text) : IsTrail text
  | block {body text : List Char} (hclose : throughClose body = some body.length) (hslash : body.head? ≠ some '/')
      (hline : '\n' ∉ body) (rest : IsTrail text) : IsTrail ('/' :: '*' :: body ++ ' ' :: text)

namespace IsNote

variable {text r : List Char}

theorem ne_nil (h : IsNote text) : text ≠ [] := by cases h <;> exact List.cons_ne_nil _ _

theorem head (h : IsNote text) : ∃ cs, text = '/' :: cs := by cases h <;> exact ⟨_, rfl⟩

theorem trimEnd (h : IsNote text) : LiteralFill.trimEnd text = text := by
  cases h with
  | line hbody hends => exact hends
  | block hclose hslash => exact trimEnd_blockComment hclose

/-- A comment up to the next line is measured whole by the search. -/
theorem commentLength (h : IsNote text) (hr : ∀ d ∈ r.head?, d = '\n') :
    LiteralFill.commentLength (text ++ r) = some text.length := by
  cases h with
  | line hbody hends => exact commentLength_lineComment hbody hr
  | block hclose hslash => exact commentLength_blockComment r hclose hslash

theorem commentsFrom (h : IsNote text) (hr : ∀ d ∈ r.head?, d = '\n') (offset : Nat) :
    LiteralFill.commentsFrom offset 0 (text ++ r) =
      ⟨offset, String.ofList text⟩ :: LiteralFill.commentsFrom (offset + byteLength text) 0 r := by
  rw [commentsFrom_append_of_length text offset r h.ne_nil (h.commentLength hr), h.trimEnd]

end IsNote

theorem lexemes_blockComment {body : List Char} (hclose : throughClose body = some body.length) (r : List Char) :
    lexemes ('/' :: '*' :: body ++ r) = ⟨.blockComment, '/' :: '*' :: body⟩ :: lexemes r := by
  have hwhole : throughClose (body ++ r) = some body.length := by
    have h := hclose
    rw [← List.append_nil body] at h
    simpa using throughClose_append r h (by simp)
  rw [List.cons_append, List.cons_append, lexemes_cons, lexemeAt_blockComment, hwhole]
  simp [Nat.add_comm 2]

theorem lexemes_lineComment {body : List Char} (hbody : ∀ d ∈ body, d ≠ '\n') {r : List Char}
    (hr : ∀ d ∈ r.head?, d = '\n') :
    lexemes ('/' :: '/' :: body ++ r) = ⟨.lineComment, '/' :: '/' :: body⟩ :: lexemes r := by
  have hrest : r.takeWhile (· != '\n') = [] := by
    cases r with
    | nil => rfl
    | cons d r => simp [hr d rfl]
  have hlength : runLength (· != '\n') (body ++ r) = body.length := by
    rw [runLength, List.takeWhile_append_of_pos fun d hd => by simpa using hbody d hd, hrest, List.append_nil]
  rw [List.cons_append, List.cons_append, lexemes_cons, lexemeAt_lineComment, hlength]
  simp [Nat.add_comm 2]

/-- A comment up to the next line is one lexeme. -/
theorem IsNote.lexemes {text : List Char} (h : IsNote text) {r : List Char} (hr : ∀ d ∈ r.head?, d = '\n') :
    ∃ l : Lexeme, l.isTrivia ∧ LiteralFill.lexemes (text ++ r) = l :: LiteralFill.lexemes r := by
  cases h with
  | line hbody hends => exact ⟨_, rfl, lexemes_lineComment hbody hr⟩
  | block hclose hslash => exact ⟨_, rfl, lexemes_blockComment hclose r⟩

/-! ## Blanks -/

theorem lexemes_indent {b r : List Char} (hb : ∀ c ∈ b, isLineBlank c) (hr : IsUnblank r) : ∃ gs,
    lexemes (b ++ r) = gs ++ lexemes r ∧ ∀ l ∈ gs, l.isTrivia := by
  by_cases hne : b = []
  · exact ⟨[], by rw [hne]; rfl, by simp⟩
  · refine ⟨[⟨.blank, b⟩], lexemes_blanks hne hb hr, ?_⟩
    simp [Lexeme.isTrivia]

theorem not_mem_slash_of_isLineBlank {b : List Char} (hb : ∀ c ∈ b, isLineBlank c) : '/' ∉ b :=
  fun hmem => absurd (hb _ hmem) (by decide)

/-! ## Comments on lines of their own -/

/-- Comments, each on a line of its own with this indentation, and the indentation `b` of the line behind
them. -/
def noteLines (indent : List Char) (notes : List String) (b : List Char) : List Char :=
  notes.flatMap (fun c => indent ++ (c.toList ++ ['\n'])) ++ b

/-- Between tokens they are read as these comments and nothing else. -/
theorem isGapText_noteLines {indent b : List Char} (hindent : ∀ c ∈ indent, isLineBlank c) (hb : ∀ c ∈ b, isLineBlank c)
    {notes : List String} (h : ∀ c ∈ notes, IsNote c.toList) :
    IsGapText ('\n' :: noteLines indent notes b) IsUnblank notes := by
  constructor
  · intro r hr
    induction notes with
    | nil =>
      obtain ⟨gs, hgs, htrivia⟩ := lexemes_indent hb hr
      refine ⟨⟨.newline, ['\n']⟩ :: gs, ?_, ?_⟩
      · show lexemes ('\n' :: (b ++ r)) = _
        rw [lexemes_newline, hgs]
        rfl
      · simpa [Lexeme.isTrivia] using htrivia
    | cons c notes ih =>
      obtain ⟨rest, hrest, htrivia⟩ := ih fun d hd => h d (by simp [hd])
      have hnote := h c (by simp)
      obtain ⟨cs, hslash⟩ := hnote.head
      obtain ⟨l, hl, hnoteLexemes⟩ := hnote.lexemes (r := '\n' :: (noteLines indent notes b ++ r)) (by rintro d ⟨⟩; rfl)
      obtain ⟨gs, hgs, htrivia'⟩ := lexemes_indent (r := c.toList ++ '\n' :: (noteLines indent notes b ++ r)) hindent
        (by rw [hslash]; rintro d ⟨⟩; decide)
      refine ⟨⟨.newline, ['\n']⟩ :: (gs ++ l :: rest), ?_, ?_⟩
      · have htext : '\n' :: noteLines indent (c :: notes) b ++ r =
            '\n' :: (indent ++ (c.toList ++ '\n' :: (noteLines indent notes b ++ r))) := by
          simp [noteLines]
        rw [List.cons_append] at hrest
        rw [htext, lexemes_newline, hgs, hnoteLexemes, hrest]
        simp
      · intro m hm
        rcases List.mem_cons.mp hm with rfl | hm
        · rfl
        · rcases List.mem_append.mp hm with hm | hm
          · exact htrivia' m hm
          · rcases List.mem_cons.mp hm with rfl | hm
            · exact hl
            · exact htrivia m hm
  · have hfrom : ∀ offset, (commentsFrom offset 0 ('\n' :: noteLines indent notes b)).map (·.text) = notes := by
      induction notes with
      | nil =>
        intro offset
        have hslash : '/' ∉ '\n' :: b := by simpa using not_mem_slash_of_isLineBlank hb
        have hnone := commentsFrom_append_of_not_mem offset [] hslash
        rw [List.append_nil] at hnone
        show (commentsFrom offset 0 ('\n' :: b)).map (·.text) = []
        rw [hnone]
        rfl
      | cons c notes ih =>
        intro offset
        have hslash : '/' ∉ '\n' :: indent := by simpa using not_mem_slash_of_isLineBlank hindent
        have htext : '\n' :: noteLines indent (c :: notes) b =
            ('\n' :: indent) ++ (c.toList ++ '\n' :: noteLines indent notes b) := by
          simp [noteLines]
        rw [htext, commentsFrom_append_of_not_mem _ _ hslash,
          (h c (by simp)).commentsFrom (by rintro d ⟨⟩; rfl), List.map_cons, ih fun d hd => h d (by simp [hd])]
        simp
    exact hfrom 0

/-! ## Comments behind an element -/

theorem joinNotes_cons {c : String} {notes : List String} {t : String} (h : joinNotes notes = some t) :
    joinNotes (c :: notes) = some (c ++ " " ++ t) := by
  unfold joinNotes at h ⊢
  cases notes with
  | nil => cases h
  | cons d notes =>
    obtain rfl : " ".intercalate (d :: notes) = t := by simpa using h
    simp [String.intercalate_cons_cons, String.append_assoc]

namespace IsTrail

variable {text : List Char}

theorem noLine (h : IsTrail text) : '\n' ∉ text := by
  induction h with
  | last h hline => exact hline
  | block hclose hslash hline rest ih => simp [hline, ih]

/-- Behind spaces they are read, up to the next line, as comments with this text. -/
theorem isGapText (h : IsTrail text) {spaces : List Char} (hne : spaces ≠ []) (hspaces : ∀ c ∈ spaces, c = ' ') :
    ∃ notes, IsGapText (spaces ++ text) IsNextLine notes ∧ joinNotes notes = some (String.ofList text) := by
  have hspace : ∀ {spaces : List Char}, (∀ c ∈ spaces, c = ' ') → ∀ c ∈ spaces, isLineBlank c := by
    intro spaces hspaces c hc
    rw [hspaces c hc]
    rfl
  induction h generalizing spaces with
  | @last text h hline =>
    obtain ⟨cs, hslash⟩ := h.head
    refine ⟨[String.ofList text], ⟨?_, ?_⟩, by simp [joinNotes]⟩
    · rintro r ⟨r', rfl⟩
      obtain ⟨l, hl, hnote⟩ := h.lexemes (r := '\n' :: r') (by rintro d ⟨⟩; rfl)
      obtain ⟨gs, hgs, htrivia⟩ := lexemes_indent (r := text ++ '\n' :: r') (hspace hspaces)
        (by rw [hslash]; rintro d ⟨⟩; decide)
      refine ⟨gs ++ [l], by rw [List.append_assoc, hgs, hnote]; simp, ?_⟩
      simpa [or_imp, forall_and, hl] using htrivia
    · have hfound := h.commentsFrom (r := []) (by simp) (byteLength spaces)
      rw [List.append_nil] at hfound
      rw [commentsIn, commentsFrom_append_of_not_mem _ _ (not_mem_slash_of_isLineBlank (hspace hspaces)), Nat.zero_add,
        hfound]
      rfl
  | @block body text hclose hslash hline rest ih =>
    have hspaces' : ∀ c ∈ [' '], c = ' ' := by simp
    obtain ⟨notes, hgap, hjoin⟩ := ih (by simp) hspaces'
    have hnote : IsNote ('/' :: '*' :: body) := .block hclose hslash
    refine ⟨String.ofList ('/' :: '*' :: body) :: notes, ⟨?_, ?_⟩, ?_⟩
    · intro r hr
      obtain ⟨more, hmore, htrivia⟩ := hgap.lexemes r hr
      obtain ⟨gs, hgs, htrivia'⟩ := lexemes_indent (r := '/' :: '*' :: body ++ (' ' :: text ++ r)) (hspace hspaces)
        (by rintro d ⟨⟩; decide)
      refine ⟨gs ++ ⟨.blockComment, '/' :: '*' :: body⟩ :: more, ?_, ?_⟩
      · rw [List.append_assoc, List.append_assoc, hgs, lexemes_blockComment hclose]
        rw [List.singleton_append] at hmore
        rw [hmore]
        simp
      · intro m hm
        rcases List.mem_append.mp hm with hm | hm
        · exact htrivia' m hm
        · rcases List.mem_cons.mp hm with rfl | hm
          · rfl
          · exact htrivia m hm
    · have hfound := hgap.notes
      rw [commentsIn, commentsFrom_append_of_not_mem _ _ (not_mem_slash_of_isLineBlank (hspace hspaces)), Nat.zero_add,
        commentsFrom_append_of_length _ _ _ hnote.ne_nil (commentLength_blockComment _ hclose hslash), hnote.trimEnd,
        List.map_cons, commentsFrom_texts _ 0]
      exact congrArg _ hfound
    · rw [joinNotes_cons hjoin]
      simp [← String.toList_inj]

end IsTrail

end LiteralFill
