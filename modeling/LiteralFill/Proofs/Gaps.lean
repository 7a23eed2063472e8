import LiteralFill.Proofs.CommentsKept
import LiteralFill.Proofs.Lexing.Tiling

/-!
The comments in the gaps between tokens. The scan that finds the tokens passes over the comments, and a search of
the gap finds them again from its characters alone. The two agree on every comment but one: where the characters of
a comment's end stand directly behind those of its beginning, the search takes the star for both.
-/

namespace LiteralFill

/-! ## Gaps -/

/-- The stretches before, between and after tokens. -/
def gapsFrom (start stop : Nat) : List Token → List Span
  | [] => [⟨start, stop⟩]
  | t :: ts => ⟨start, t.start⟩ :: gapsFrom t.stop stop ts

/-- The stretches of a text outside its written tokens. -/
def tokenGaps (text : List Char) : List Span :=
  gapsFrom 0 (byteLength text) ((tokenize text).1.filter (!·.isImplied))

/-- A gap among lexemes lies between two cuts and holds no token. `gs` are the lexemes passed over since the last
token. -/
theorem parts_of_mem_gapsFrom (front gs : List Lexeme) {ls : List Lexeme} (hgs : ∀ l ∈ gs, l.isTrivia)
    (hne : ∀ l ∈ ls, l.text ≠ []) {pending : Bool} {gap : Span}
    (h : gap ∈ gapsFrom (byteLength (lexemesText front)) (byteLength (lexemesText (front ++ gs ++ ls)))
      ((tokensFrom (byteLength (lexemesText (front ++ gs))) pending ls).filter (!·.isImplied))) :
    ∃ before between after, front ++ gs ++ ls = before ++ between ++ after ∧ (∀ l ∈ between, l.isTrivia) ∧
      gap = ⟨byteLength (lexemesText before), byteLength (lexemesText (before ++ between))⟩ := by
  induction ls generalizing front gs pending with
  | nil =>
    have hnone : (tokensFrom (byteLength (lexemesText (front ++ gs))) pending []).filter (!·.isImplied) = [] := by
      cases pending <;> rfl
    rw [hnone, gapsFrom, List.mem_singleton, List.append_nil] at h
    exact ⟨front, gs, [], rfl, hgs, h⟩
  | cons l ls ih =>
    have hrest : ∀ m ∈ ls, m.text ≠ [] := fun m hm => hne m (List.mem_cons_of_mem l hm)
    rw [tokensFrom_cons, List.filter_append] at h
    rcases lexemeTokens_written (byteLength (lexemesText (front ++ gs))) pending (hne l List.mem_cons_self) with
      ⟨htrivia, himplied⟩ | ⟨kind, htoken, hwritten⟩
    · -- the gap goes on
      have hall : ∀ m ∈ gs ++ [l], m.isTrivia := by
        intro m hm
        rcases List.mem_append.mp hm with hm | hm
        · exact hgs m hm
        · rwa [List.mem_singleton.mp hm]
      rw [List.filter_eq_nil_iff.mpr (by simpa using himplied), List.nil_append] at h
      have := ih front (gs ++ [l]) hall hrest (by simpa [byteLength_append, Nat.add_assoc] using h)
      simpa using this
    · rw [htoken, List.filter_cons_of_pos (by rw [hwritten]; rfl), List.filter_nil, List.singleton_append, gapsFrom,
        List.mem_cons] at h
      rcases h with h | h
      · exact ⟨front, gs, l :: ls, rfl, hgs, h⟩
      · have := ih (front ++ gs ++ [l]) [] (by simp) hrest
          (by simpa [Token.stop, byteLength_append, Nat.add_assoc] using h)
        simpa using this

/-- A gap of a text lies between two cuts and holds no token. -/
theorem parts_of_mem_tokenGaps {text : List Char} {gap : Span} (h : gap ∈ tokenGaps text) :
    ∃ before between after, lexemes text = before ++ between ++ after ∧ (∀ l ∈ between, l.isTrivia) ∧
      gap = ⟨byteLength (lexemesText before), byteLength (lexemesText (before ++ between))⟩ := by
  have h : gap ∈ gapsFrom 0 (byteLength text) ((tokensFrom 0 false (lexemes text)).filter (!·.isImplied)) := h
  have hwhole : byteLength text = byteLength (lexemesText (lexemes text)) := by rw [lexemesText_lexemes]
  rw [hwhole] at h
  exact parts_of_mem_gapsFrom [] [] nofun (fun l hl => text_ne_nil_of_mem hl) h

/-! ## Comments of a gap -/

/-- A comment with its position counted from another place. -/
def Comment.relativeTo (start : Nat) (c : Comment) : Comment := ⟨c.offset - start, c.text⟩

theorem comments_relativeTo (start offset : Nat) (ls : List Lexeme) :
    ((placed (start + offset) ls).filterMap commentOf).map (·.relativeTo start) =
      (placed offset ls).filterMap commentOf := by
  induction ls generalizing offset with
  | nil => rfl
  | cons l ls ih =>
    have hrest := ih (offset + byteLength l.text)
    rw [← Nat.add_assoc] at hrest
    have hfirst : (commentOf (start + offset, l)).map (·.relativeTo start) = commentOf (offset, l) := by
      obtain ⟨kind, cs⟩ := l
      cases kind <;> simp [commentOf, Comment.relativeTo]
    rw [placed_cons, placed_cons, List.filterMap_cons, List.filterMap_cons, ← hfirst]
    cases commentOf (start + offset, l) with
    | none => exact hrest
    | some c => rw [List.map_cons, hrest]; rfl

/-- Of a comment that begins with the characters of its end the search takes these for all of it. -/
theorem commentsFrom_beginsWithEnd (offset : Nat) (cs : List Char) :
    commentsFrom offset 0 ('/' :: '*' :: '/' :: cs) =
      ⟨offset, "/*/"⟩ :: commentsFrom (offset + 3) 0 cs := by
  have hlength : commentLength ('/' :: '*' :: '/' :: cs) = some 3 := by
    have hno : ¬ ('/' = '*' ∧ ('*' :: '/' :: cs).head? = some '/') := fun h => absurd h.1 (by decide)
    rw [commentLength, throughClose_cons, if_neg hno]
    rfl
  rw [commentsFrom, hlength]
  rfl

theorem trimEnd_isPrefix (cs : List Char) : trimEnd cs <+: cs := by
  induction cs with
  | nil => exact List.prefix_rfl
  | cons c cs ih =>
    rw [trimEnd]
    cases hrest : trimEnd cs with
    | nil =>
      dsimp only
      split
      · exact List.nil_prefix
      · exact (List.prefix_cons_inj c).mpr List.nil_prefix
    | cons d ds =>
      rw [hrest] at ih
      exact (List.prefix_cons_inj c).mpr ih

/-- A comment whose text begins with these characters is a block comment that does. -/
theorem beginsWithEnd_of_commentOf {l : Lexeme} {rest : List Lexeme} (h : l.IsFormed rest) {p : Nat} {c : Comment}
    (hc : commentOf (p, l) = some c) (hpre : ['/', '*', '/'] <+: c.text.toList) : l.beginsWithEnd = true := by
  obtain ⟨kind, text⟩ := l
  cases kind <;> cases hc <;> rw [String.toList_ofList] at hpre <;>
    obtain ⟨cs, rfl⟩ := hpre.trans (trimEnd_isPrefix text)
  · obtain ⟨body, hbody, -⟩ := h
    simp at hbody
  · rfl

/-! ## The search of a gap -/

section

variable {gs rest : List Lexeme} (h : lexemes (lexemesText (gs ++ rest)) = gs ++ rest)
include h

theorem isFormed_of_mem {l : Lexeme} (hl : l ∈ gs) : ∃ ls, l.IsFormed ls := by
  obtain ⟨front, back, rfl⟩ := List.append_of_mem hl
  rw [List.append_assoc] at h
  exact ⟨back ++ rest, isFormed_of_lexemes (lexemes_of_append front h)⟩

/-- The search of lexemes that are no tokens gives the comments among them if and only if none begins with the
characters of its end. -/
theorem commentsIn_lexemes_iff (hgs : ∀ l ∈ gs, l.isTrivia) :
    commentsIn (lexemesText gs) = (placed 0 gs).filterMap commentOf ↔
      ∀ c ∈ (placed 0 gs).filterMap commentOf, ¬ ['/', '*', '/'] <+: c.text.toList := by
  have hbetween : ∀ l ∈ gs, l.isBetween := by
    intro l hl
    obtain ⟨kind, cs⟩ := l
    have := hgs _ hl
    cases kind with
    | token k => cases this
    | openComment => cases this
    | _ => rfl
  cases hfind : gs.find? (·.beginsWithEnd) with
  | none =>
    have hend : ∀ l ∈ gs, l.beginsWithEnd = false := by simpa using List.find?_eq_none.mp hfind
    refine iff_of_true ?_ fun c hc hpre => ?_
    · have := commentsFrom_lexemes 0 h (r := []) List.nil_prefix hbetween hend
      rwa [List.append_nil, commentsFrom, List.append_nil] at this
    · obtain ⟨⟨p, l⟩, hplaced, hcomment⟩ := List.mem_filterMap.mp hc
      have hl : l ∈ gs := by
        rw [← placed_map_snd 0 gs]
        exact List.mem_map_of_mem (f := (·.2)) hplaced
      obtain ⟨ls, hformed⟩ := isFormed_of_mem h hl
      have := beginsWithEnd_of_commentOf hformed hcomment hpre
      rw [hend l hl] at this
      cases this
  | some l =>
    -- the first comment of that kind is where the search goes wrong
    obtain ⟨hl, front, back, rfl, hfront⟩ := List.find?_eq_some_iff_append.mp hfind
    obtain ⟨ls, hformed⟩ := isFormed_of_mem h (l := l) (by simp)
    obtain ⟨cs, htext, hne, hcomment⟩ := commentOf_beginsWithEnd hformed hl (byteLength (lexemesText front))
    have hplaced : (placed 0 (front ++ l :: back)).filterMap commentOf = (placed 0 front).filterMap commentOf ++
        ⟨byteLength (lexemesText front), String.ofList l.text⟩ ::
          (placed (byteLength (lexemesText front) + byteLength l.text) back).filterMap commentOf := by
      rw [placed_append, List.filterMap_append, Nat.zero_add, placed_cons, List.filterMap_cons_some hcomment]
    rw [hplaced]
    refine iff_of_false (fun hsame => ?_) fun hnone => ?_
    · rw [List.append_assoc] at h
      have hsearch := commentsFrom_lexemes 0 h (r := lexemesText (l :: back))
        (by rw [List.cons_append, ← List.cons_append, lexemesText_append]; exact List.prefix_append _ _)
        (fun m hm => hbetween m (by simp [hm])) (fun m hm => by simpa using hfront m hm)
      rw [commentsIn, lexemesText_append, hsearch, Nat.zero_add, lexemesText_cons, htext, List.cons_append,
        List.cons_append, List.cons_append, commentsFrom_beginsWithEnd] at hsame
      have hhead := (List.cons.inj (List.append_cancel_left hsame)).1
      have hlength := congrArg (·.text.toList) hhead
      simp only [String.toList_ofList] at hlength
      have : "/*/".toList = ['/', '*', '/'] := rfl
      rw [this] at hlength
      simp only [List.cons.injEq, true_and] at hlength
      exact hne hlength.symm
    · refine hnone _ (List.mem_append_right _ List.mem_cons_self) ?_
      rw [String.toList_ofList, htext]
      exact ⟨cs, rfl⟩

end

/-- The search of a gap gives the comments that the scan passes over there, in order, each with its place and all of
its text, if and only if none of them begins with the characters of a comment's end directly behind those of its
beginning. -/
theorem commentsIn_gap_iff {text : List Char} {gap : Span} (hgap : gap ∈ tokenGaps text) :
    commentsIn (slice text gap) = (commentsBetween text gap.start gap.stop).map (·.relativeTo gap.start) ↔
      ∀ c ∈ commentsBetween text gap.start gap.stop, ¬ ['/', '*', '/'] <+: c.text.toList := by
  obtain ⟨before, between, after, hls, htrivia, rfl⟩ := parts_of_mem_tokenGaps hgap
  have hcut : lexemes (lexemesText (between ++ after)) = between ++ after :=
    lexemes_of_append before (hls.trans (List.append_assoc ..))
  have hcomments : (commentsBetween text (byteLength (lexemesText before))
      (byteLength (lexemesText (before ++ between)))).map (·.relativeTo (byteLength (lexemesText before))) =
        (placed 0 between).filterMap commentOf := by
    rw [commentsBetween, stretch_eq after hls]
    exact comments_relativeTo _ 0 between
  have htexts : ∀ cs : List Comment, (∀ c ∈ cs, ¬ ['/', '*', '/'] <+: c.text.toList) ↔
      ∀ c ∈ cs.map (·.relativeTo (byteLength (lexemesText before))), ¬ ['/', '*', '/'] <+: c.text.toList := by
    intro cs
    rw [List.forall_mem_map]
    rfl
  rw [slice_eq after hls, htexts, hcomments]
  exact commentsIn_lexemes_iff hcut htrivia

/-- Two gaps with a comment each: the first has all kinds of marks in its body, the second begins with its end. -/
def slashedText : List Char := "\uFEFFa /* // \x22 /* \n */b /*/ // */ c".toList

theorem commentsIn_gap_iff_slashedText :
    (⟨4, 20⟩ ∈ tokenGaps slashedText ∧
      commentsIn (slice slashedText ⟨4, 20⟩) = [⟨1, "/* // \x22 /* \n */"⟩]) ∧
    ⟨21, 32⟩ ∈ tokenGaps slashedText ∧
      commentsBetween slashedText 21 32 = [⟨22, "/*/ // */"⟩] ∧
      commentsIn (slice slashedText ⟨21, 32⟩) ≠ [⟨1, "/*/ // */"⟩] := by
  have hfirst : ⟨4, 20⟩ ∈ tokenGaps slashedText := by decide +kernel
  have hsecond : ⟨21, 32⟩ ∈ tokenGaps slashedText := by decide +kernel
  have hskipped : commentsBetween slashedText 4 20 = [⟨5, "/* // \x22 /* \n */"⟩] := by decide +kernel
  have hskipped' : commentsBetween slashedText 21 32 = [⟨22, "/*/ // */"⟩] := by decide +kernel
  refine ⟨⟨hfirst, ?_⟩, hsecond, hskipped', fun hsame => ?_⟩
  · have := (commentsIn_gap_iff hfirst).mpr (by rw [hskipped]; decide)
    rw [this, hskipped]
    rfl
  · refine (commentsIn_gap_iff hsecond).mp ?_ ⟨22, "/*/ // */"⟩ ?_ ⟨" // */".toList, rfl⟩
    · rw [hsame, hskipped']
      rfl
    · rw [hskipped']
      exact List.mem_singleton_self _

end LiteralFill
