import LiteralFill.Proofs.Nesting
import LiteralFill.Proofs.Walk
import Mathlib.Data.List.TakeWhile

/-!
The block of a statement. While the header of a statement is open the pass takes no name before a brace for
the type of a literal, but it asks this of names only: the type of a slice, an array, a map or a struct may
also end at the brace of the block. If the header keeps to what `Clauses` allows, that is the one way in which
the block becomes a literal.
-/

namespace LiteralFill

/-! ## Headers -/

namespace TokenKind

/-- A keyword with a header that ends at a block. -/
def opensBlock : TokenKind → Bool
  | .keyword .ifWord | .keyword .forWord | .keyword .switchWord | .keyword .selectWord => true
  | _ => false

/-- An ordinary token that begins no header. -/
def isQuiet : TokenKind → Bool
  | .keyword .ifWord | .keyword .forWord | .keyword .switchWord | .keyword .selectWord => false
  | .keyword .funcWord => false
  | k => k.isOrdinary

theorem isOrdinary_of_isQuiet {k : TokenKind} (h : k.isQuiet) : k.isOrdinary := by
  cases k with
  | keyword w => cases w <;> first | rfl | cases h
  | opener b => cases h
  | closer b => cases h
  | _ => rfl

theorem isQuiet_of_isPlain {k : TokenKind} (h : k.isPlain) (hf : k ≠ .keyword .funcWord) : k.isQuiet := by
  cases k with
  | keyword w => cases w <;> first | rfl | exact absurd rfl hf | cases h
  | _ => first | rfl | cases h

theorem isOrdinary_of_opensBlock {k : TokenKind} (h : k.opensBlock) : k.isOrdinary := by
  cases k with
  | keyword w => cases w <;> first | rfl | cases h
  | _ => cases h

theorem beginsItem_of_opensBlock {k : TokenKind} (h : k.opensBlock) : k.beginsItem = false := by
  cases k with
  | keyword w => cases w <;> first | rfl | cases h
  | _ => cases h

theorem beginsItem_of_isDeclaring {k : TokenKind} (h : k.isDeclaring) : k.beginsItem = false := by
  cases k with
  | keyword w => cases w <;> first | rfl | cases h
  | _ => cases h

end TokenKind

namespace Lexed

/-- A type that is no name stands between two places; a literal may begin with it. -/
structure IsUnnamed (s : Lexed) (i j : Nat) : Prop where
  begins : ∃ k, s.kindAt i = some k ∧ Outline.beginsLiteral k
  type : ∃ type, (readType s ⟨i, []⟩).1 = some type ∧ type.isName = false
  index : (readType s ⟨i, []⟩).2.index = j

/-- The tokens of the parameters and the result of a function, where no `func` of a result stands outside
brackets. -/
inductive Signature (s : Lexed) : Nat → Nat → Prop
  | none (i : Nat) : Signature s i i
  | plain {i j : Nat} {k : TokenKind} (hk : s.kindAt i = some k) (hp : k.isPlain)
      (hf : k ≠ .keyword .funcWord) (rest : Signature s (i + 1) j) : Signature s i j
  | group {i c j : Nat} {b : Bracket} (hk : s.kindAt i = some (.opener b)) (hb : b ≠ .brace)
      (hc : s.closerOf i = some c) (inside : s.Balanced (i + 1) c) (rest : Signature s (c + 1) j) :
      Signature s i j
  | body {i c j : Nat} {w : Keyword} (hk : s.kindAt i = some (.keyword w))
      (hw : w = .structWord ∨ w = .interfaceWord) (hb : s.kindAt (i + 1) = some (.opener .brace))
      (hc : s.closerOf (i + 1) = some c) (inside : s.Balanced (i + 2) c) (rest : Signature s (c + 1) j) :
      Signature s i j

/-- The tokens of the clauses of a header, or of statements on one line. Between parentheses and square
brackets and in literals there may be anything with balanced brackets. A block in braces has a header of its
own, and so has the body of a function; no newline ends a statement in them. -/
inductive Clauses (s : Lexed) : Nat → Nat → Prop
  | none (i : Nat) : Clauses s i i
  | single {i j : Nat} {t : Token} (ht : s.tokens[i]? = some t) (hk : t.kind.isQuiet)
      (hi : t.isImplied = false)
      (hb : t.kind = .keyword .structWord ∨ t.kind = .keyword .interfaceWord →
        s.kindAt (i + 1) ≠ some (.opener .brace))
      (rest : Clauses s (i + 1) j) : Clauses s i j
  | group {i c j : Nat} {b : Bracket} (hk : s.kindAt i = some (.opener b)) (hb : b ≠ .brace)
      (hc : s.closerOf i = some c) (inside : s.Balanced (i + 1) c) (rest : Clauses s (c + 1) j) :
      Clauses s i j
  | body {i c j : Nat} {w : Keyword} (hk : s.kindAt i = some (.keyword w))
      (hw : w = .structWord ∨ w = .interfaceWord) (hb : s.kindAt (i + 1) = some (.opener .brace))
      (hc : s.closerOf (i + 1) = some c) (inside : s.Balanced (i + 2) c) (rest : Clauses s (c + 1) j) :
      Clauses s i j
  | declaration {i j : Nat} {t : Token} (ht : s.tokens[i]? = some t) (hk : t.kind.isDeclaring)
      (within : s.Balanced (i + 1) (Outline.nextIndex s t (.at i)))
      (rest : Clauses s (Outline.nextIndex s t (.at i)) j) : Clauses s i j
  | literal {i b c j : Nat} (ht : s.IsUnnamed i b) (within : s.Balanced i b)
      (hb : s.kindAt b = some (.opener .brace)) (hc : s.closerOf b = some c)
      (inside : s.Balanced (b + 1) c) (rest : Clauses s (c + 1) j) : Clauses s i j
  | block {i b c j : Nat} {k : TokenKind} (hk : s.kindAt i = some k) (hw : k.opensBlock)
      (head : Clauses s (i + 1) b) (hb : s.kindAt b = some (.opener .brace)) (hc : s.closerOf b = some c)
      (inside : Clauses s (b + 1) c) (rest : Clauses s (c + 1) j) : Clauses s i j
  | func {i b c j : Nat} (hk : s.kindAt i = some (.keyword .funcWord)) (head : Signature s (i + 1) b)
      (hb : s.kindAt b = some (.opener .brace)) (hc : s.closerOf b = some c)
      (inside : Clauses s (b + 1) c) (rest : Clauses s (c + 1) j) : Clauses s i j

variable {s : Lexed} {i j b c : Nat}

/-- The problems noted before a type have no part in what it is read as. -/
theorem readType_at (hm : s.IsMatched) (i : Nat) (ds ds' : List Diagnostic) :
    (readType s ⟨i, ds⟩).1 = (readType s ⟨i, ds'⟩).1 ∧
      (readType s ⟨i, ds⟩).2.index = (readType s ⟨i, ds'⟩).2.index := by
  have halike := Alignment.readType_alike (A := .refl s) hm hm ⟨i, ds⟩ ⟨i, ds'⟩ rfl
  generalize readType s ⟨i, ds⟩ = r at halike
  generalize readType s ⟨i, ds'⟩ = r' at halike
  cases halike with
  | failed h => exact ⟨rfl, h⟩
  | gave h htype =>
    refine ⟨?_, h⟩
    rw [htype.2 trivial]
    exact congrArg some (TypeExpr.move_id _).symm

theorem IsUnnamed.items (hm : s.IsMatched) (h : s.IsUnnamed i j) : Items s i j := by
  obtain ⟨type, htype, -⟩ := h.type
  have hreads := readType_reads hm ⟨i, []⟩
  rw [← h.index]
  exact (hreads.2 (by rw [htype]; rfl)).2.1

theorem Signature.items (h : s.Signature i j) : Items s i j := by
  induction h with
  | none => exact .none _
  | plain hk hp _ _ ih => exact .plain hk hp ih
  | group hk hb hc _ _ ih => exact .group hk hb hc ih
  | body hk hw hb hc _ _ ih => exact .body hk hw hb hc ih

theorem Balanced.append {k : Nat} (h : s.Balanced i j) (h' : s.Balanced j k) : s.Balanced i k := by
  induction h with
  | none => exact h'
  | single hk ho _ ih => exact .single hk ho (ih h')
  | group hk hc inside _ _ ih => exact .group hk hc inside (ih h')
  | declaration ht hk within _ _ ih => exact .declaration ht hk within (ih h')

theorem isOrdinary_of_body {w : Keyword} (hw : w = .structWord ∨ w = .interfaceWord) :
    (TokenKind.keyword w).isOrdinary := by
  rcases hw with rfl | rfl
  · rfl
  · rfl

theorem Signature.balanced (h : s.Signature i j) : s.Balanced i j := by
  induction h with
  | none => exact .none _
  | plain hk hp _ _ ih => exact .single hk (TokenKind.isOrdinary_of_isPlain hp) ih
  | group hk _ hc inside _ ih => exact .group hk hc inside ih
  | body hk hw hb hc inside _ ih => exact .single hk (isOrdinary_of_body hw) (.group hb hc inside ih)

namespace Clauses

theorem balanced (h : s.Clauses i j) : s.Balanced i j := by
  induction h with
  | none => exact .none _
  | single ht hk _ _ _ ih => exact .single (kindAt_of_token ht) (TokenKind.isOrdinary_of_isQuiet hk) ih
  | group hk _ hc inside _ ih => exact .group hk hc inside ih
  | body hk hw hb hc inside _ ih => exact .single hk (isOrdinary_of_body hw) (.group hb hc inside ih)
  | declaration ht hk within _ ih => exact .declaration ht hk within ih
  | literal _ within hb hc inside _ ih => exact within.append (.group hb hc inside ih)
  | block hk hw _ hb hc _ _ head inside rest =>
    exact .single hk (TokenKind.isOrdinary_of_opensBlock hw) (head.append (.group hb hc inside rest))
  | func hk head hb hc _ _ inside rest =>
    exact .single hk rfl (head.balanced.append (.group hb hc inside rest))

theorem le (hm : s.IsMatched) (h : s.Clauses i j) : i ≤ j := h.balanced.le hm

theorem exists_token (h : s.Clauses i j) (hij : i < j) : ∃ t, s.tokens[i]? = some t := by
  cases h with
  | none => exact absurd hij (Nat.lt_irrefl _)
  | single ht => exact ⟨_, ht⟩
  | declaration ht => exact ⟨_, ht⟩
  | group hk => exact Lexed.exists_token (kindAt_lt hk)
  | body hk => exact Lexed.exists_token (kindAt_lt hk)
  | literal ht =>
    obtain ⟨k, hk, -⟩ := ht.begins
    exact Lexed.exists_token (kindAt_lt hk)
  | block hk => exact Lexed.exists_token (kindAt_lt hk)
  | func hk => exact Lexed.exists_token (kindAt_lt hk)

/-- A type within a header ends at a brace that the header passes with what it encloses, or the header ends
within the type. -/
theorem after_items (hm : s.IsMatched) (h : s.Clauses i j) (hitems : Items s i b)
    (hb : s.kindAt b = some (.opener .brace)) :
    Items s j b ∨ ∃ c, s.closerOf b = some c ∧ s.Balanced (b + 1) c ∧ s.Clauses (c + 1) j ∧
      ∀ m, s.Clauses (c + 1) m → s.Clauses i m := by
  induction h with
  | none => exact .inl hitems
  | @single i j t ht hk hi hbody rest ih =>
    have hkind := kindAt_of_token ht
    have hnext : Items s (i + 1) b := by
      cases hitems with
      | none =>
        rw [hb] at hkind
        rw [← Option.some.inj hkind] at hk
        cases hk
      | plain _ _ rest => exact rest
      | group hk' =>
        rw [hkind] at hk'
        rw [Option.some.inj hk'] at hk
        cases hk
      | body hk' hw hbrace =>
        rw [hkind, Option.some.injEq] at hk'
        exact absurd hbrace (hbody (by rw [hk']; simpa using hw))
    exact (ih hnext).imp_right fun ⟨c, hc, inside, hrest, hext⟩ =>
      ⟨c, hc, inside, hrest, fun m hm => .single ht hk hi hbody (hext m hm)⟩
  | group hk hne hc inside rest ih =>
    rcases hitems.of_group hk hc with rfl | hnext
    · rw [hb] at hk
      cases hk
      exact absurd rfl hne
    · exact (ih hnext).imp_right fun ⟨c, hc', inside', hrest, hext⟩ =>
        ⟨c, hc', inside', hrest, fun m hm => .group hk hne hc inside (hext m hm)⟩
  | body hk hw hbrace hc inside rest ih =>
    rcases hitems.of_body hk hw hc with rfl | hnext
    · rw [hb] at hk
      cases hk
    · exact (ih hnext).imp_right fun ⟨c, hc', inside', hrest, hext⟩ =>
        ⟨c, hc', inside', hrest, fun m hm => .body hk hw hbrace hc inside (hext m hm)⟩
  | declaration ht hd =>
    have hkind := kindAt_of_token ht
    cases hitems.eq_of_kind hkind (TokenKind.beginsItem_of_isDeclaring hd)
    rw [hb] at hkind
    rw [← Option.some.inj hkind] at hd
    cases hd
  | literal ht within hbrace hc inside rest =>
    cases hitems.unique (ht.items hm) hb hbrace
    exact .inr ⟨_, hc, inside, rest, fun m hm => .literal ht within hbrace hc inside hm⟩
  | block hk hw =>
    cases hitems.eq_of_kind hk (TokenKind.beginsItem_of_opensBlock hw)
    rw [hb] at hk
    cases hk
    cases hw
  | func hk head hbrace hc inside rest =>
    rcases hitems.of_plain hk rfl with rfl | hnext
    · rw [hb] at hk
      cases hk
    · cases hnext.unique head.items hb hbrace
      exact .inr ⟨_, hc, inside.balanced, rest, fun m hm => .func hk head hbrace hc inside hm⟩

end Clauses

end Lexed

/-! ## The headers and literals around the pass -/

namespace Outline

variable {s : Lexed} {o p : Outline} {t : Token} {i j b c : Nat}

/-- The headers in progress are ordered by their nesting, and the literals in progress begin before the place
of the pass. -/
structure Ordered (s : Lexed) (o : Outline) : Prop where
  headers : o.headers.Pairwise fun h h' => h'.depth ≤ h.depth ∧ h'.level ≤ h.level
  top : ∀ h ∈ o.headers, h.depth ≤ o.depth ∧ h.level ≤ o.level
  braces : ∀ x ∈ o.openLiterals, ∃ a < o.index, s.closerOf a = some x

/-- What is left on a stack when the headers above a bound are taken away. -/
theorem dropWhile_le (f : Header → Nat) (n : Nat) {hs : List Header}
    (h : hs.Pairwise fun x y => f y ≤ f x) : ∀ x ∈ hs.dropWhile (fun x => n < f x), f x ≤ n := by
  induction hs with
  | nil => simp
  | cons y hs ih =>
    obtain ⟨hy, hrest⟩ := List.pairwise_cons.mp h
    by_cases hlt : n < f y
    · rw [List.dropWhile_cons_of_pos (by simpa using hlt)]
      exact ih hrest
    · rw [List.dropWhile_cons_of_neg (by simpa using hlt)]
      intro x hx
      rcases List.mem_cons.mp hx with rfl | hx
      · omega
      · have := hy x hx
        omega

theorem Ordered.fewer (h : Ordered s o) (hi : o.index ≤ p.index) (hs : p.headers.Sublist o.headers)
    (htop : ∀ x ∈ p.headers, x.depth ≤ p.depth ∧ x.level ≤ p.level)
    (ho : ∀ x ∈ p.openLiterals, x ∈ o.openLiterals) : Ordered s p := by
  refine ⟨h.headers.sublist hs, htop, fun x hx => ?_⟩
  obtain ⟨a, ha, hc⟩ := h.braces x (ho x hx)
  exact ⟨a, by omega, hc⟩

theorem Ordered.same (h : Ordered s o) (hi : o.index ≤ p.index) (hs : p.headers.Sublist o.headers)
    (hd : o.depth ≤ p.depth) (ho : p.openLiterals = o.openLiterals) : Ordered s p := by
  refine h.fewer hi hs (fun x hx => ?_) fun x hx => ho ▸ hx
  obtain ⟨h1, h2⟩ := h.top x (hs.subset hx)
  unfold level at h2 ⊢
  rw [ho]
  exact ⟨by omega, h2⟩

/-- A header begins. -/
theorem Ordered.push (h : Ordered s o) (hi : o.index ≤ p.index) {isFunc : Bool}
    (hh : p.headers = ⟨o.depth, o.level, isFunc⟩ :: o.headers) (hd : p.depth = o.depth)
    (ho : p.openLiterals = o.openLiterals) : Ordered s p := by
  have hl : p.level = o.level := congrArg List.length ho
  refine ⟨?_, fun x hx => ?_, fun x hx => ?_⟩
  · rw [hh]
    exact List.pairwise_cons.mpr ⟨h.top, h.headers⟩
  · rw [hh] at hx
    rw [hd, hl]
    rcases List.mem_cons.mp hx with rfl | hx
    · exact ⟨Nat.le_refl _, Nat.le_refl _⟩
    · exact h.top x hx
  · rw [ho] at hx
    obtain ⟨a, ha, hc⟩ := h.braces x hx
    exact ⟨a, by omega, hc⟩

/-- Parentheses or square brackets close. -/
theorem Ordered.close (h : Ordered s o) (hi : o.index ≤ p.index)
    (hh : p.headers = o.headers.dropWhile fun x => o.depth - 1 < x.depth) (hd : p.depth = o.depth - 1)
    (ho : p.openLiterals = o.openLiterals) : Ordered s p := by
  have hs : p.headers.Sublist o.headers := hh ▸ List.dropWhile_sublist _
  refine h.fewer hi hs (fun x hx => ⟨?_, ?_⟩) fun x hx => ho ▸ hx
  · rw [hd]
    rw [hh] at hx
    exact dropWhile_le Header.depth _ (h.headers.imp And.left) x hx
  · have := (h.top x (hs.subset hx)).2
    unfold level at this ⊢
    rwa [ho]

/-- The innermost literal ends. -/
theorem Ordered.leave (h : Ordered s o) (hi : o.index ≤ p.index)
    (hh : p.headers = o.headers.dropWhile fun x => o.level - 1 < x.level) (hd : p.depth = o.depth)
    (ho : p.openLiterals = o.openLiterals.drop 1) : Ordered s p := by
  have hs : p.headers.Sublist o.headers := hh ▸ List.dropWhile_sublist _
  have hl : p.level = o.level - 1 := by
    unfold level
    rw [ho, List.length_drop]
  refine h.fewer hi hs (fun x hx => ⟨?_, ?_⟩) fun x hx => ?_
  · rw [hd]
    exact (h.top x (hs.subset hx)).1
  · rw [hl]
    rw [hh] at hx
    exact dropWhile_le Header.level _ (h.headers.imp And.right) x hx
  · rw [ho] at hx
    exact List.mem_of_mem_drop hx

theorem Ordered.next (hm : s.IsMatched) (h : Ordered s o) (hn : IsNext s t o p) : Ordered s p := by
  have hi : o.index ≤ p.index := by
    rw [hn.index]
    exact Nat.le_of_lt (lt_nextIndex hm t o)
  have hh := hn.headers
  have hd := hn.depth
  have ho := hn.openLiterals
  obtain ⟨kind, start, text⟩ := t
  cases kind with
  | opener b =>
    cases b with
    | brace =>
      refine h.same hi ?_ (Nat.le_of_eq hd.symm) ho
      rw [hh]
      simp only [nextHeaders]
      split
      · exact List.drop_sublist 1 _
      · exact .refl _
    | paren => exact h.same hi (hh ▸ .refl _) (by rw [hd]; exact Nat.le_succ _) ho
    | square => exact h.same hi (hh ▸ .refl _) (by rw [hd]; exact Nat.le_succ _) ho
  | closer b =>
    cases b with
    | brace =>
      simp only [nextHeaders, nextOpen] at hh ho
      by_cases he : o.endsLiteral
      · rw [if_pos he] at hh ho
        exact h.leave hi hh hd ho
      · rw [if_neg he] at hh ho
        exact h.same hi (hh ▸ .refl _) (Nat.le_of_eq hd.symm) ho
    | paren => exact h.close hi hh hd ho
    | square => exact h.close hi hh hd ho
  | semicolon => exact h.same hi (hh ▸ List.dropWhile_sublist _) (Nat.le_of_eq hd.symm) ho
  | keyword w =>
    cases w with
    | funcWord => exact h.push hi hh hd ho
    | ifWord => exact h.push hi hh hd ho
    | forWord => exact h.push hi hh hd ho
    | switchWord => exact h.push hi hh hd ho
    | selectWord => exact h.push hi hh hd ho
    | _ => exact h.same hi (hh ▸ .refl _) (Nat.le_of_eq hd.symm) ho
  | _ => exact h.same hi (hh ▸ .refl _) (Nat.le_of_eq hd.symm) ho

theorem Ordered.step (hm : s.IsMatched) (h : Ordered s o) : Ordered s (step s t o) := by
  by_cases hr : beginsLiteral t.kind = false ∨ literalHere s o = none
  · exact h.next hm (step_isNext hr)
  rw [not_or, Bool.not_eq_false] at hr
  obtain ⟨⟨l, lb, rb, ds⟩, hl⟩ := Option.ne_none_iff_exists'.mp hr.2
  obtain ⟨type, -, -, -, hc, -⟩ := literalHere_eq_some.mp hl
  have hlt := (literalHere_lt hm hl).1
  rw [step_literal hr.1 hl]
  refine ⟨h.headers, fun x hx => ?_, fun x hx => ?_⟩
  · have := h.top x hx
    exact ⟨this.1, Nat.le_succ_of_le this.2⟩
  · rcases List.mem_cons.mp hx with rfl | hx
    · exact ⟨lb, Nat.lt_succ_self lb, hc⟩
    · obtain ⟨a, ha, hc⟩ := h.braces x hx
      exact ⟨a, by simp only; omega, hc⟩

theorem ordered_start (s : Lexed) (ds : List Diagnostic) : Ordered s (start ds) :=
  ⟨.nil, by simp [start], by simp [start]⟩

theorem Ordered.run (hm : s.IsMatched) (h : Ordered s o) (n : Nat) : Ordered s (run s n o) := by
  induction n generalizing o with
  | zero => exact h
  | succ n ih =>
    rw [Outline.run]
    cases ht : s.tokens[o.index]? with
    | none => exact h
    | some t => exact ih (h.step hm)

theorem Ordered.goes (hm : s.IsMatched) (h : Ordered s o) (hg : Goes s o p) : Ordered s p := by
  obtain ⟨n, rfl⟩ := hg.reaches
  exact h.run hm n

/-- The headers of the present nesting are those on top. -/
theorem Ordered.headersOver (h : Ordered s o) :
    HeadersOver (o.headers.dropWhile fun x => x.depth == o.depth && x.level == o.level) o := by
  refine ⟨⟨o.headers.takeWhile fun x => x.depth == o.depth && x.level == o.level,
    List.takeWhile_append_dropWhile.symm, fun x hx => ?_⟩, fun x hx => ?_⟩
  · have := List.mem_takeWhile_imp hx
    simpa using this
  · have hmem : x ∈ o.headers := (List.dropWhile_sublist _).subset (List.mem_of_head? hx)
    obtain ⟨hd, hl⟩ := h.top x hmem
    have hne : (x.depth == o.depth && x.level == o.level) = false := by
      have := List.head?_dropWhile_not (fun x : Header => x.depth == o.depth && x.level == o.level) o.headers
      rw [hx] at this
      simpa using this
    simp only [Bool.and_eq_false_iff, beq_eq_false_iff_ne] at hne
    exact ⟨hd, hl, by omega⟩

/-- No literal around brackets ends between them if what they enclose is balanced. -/
theorem Ordered.no_brace (hm : s.IsMatched) (h : Ordered s o) (hi : o.index < i) (hb : s.Balanced i j) :
    ∀ x ∈ o.openLiterals, x < i ∨ j ≤ x := by
  intro x hx
  obtain ⟨a, ha, hc⟩ := h.braces x hx
  by_cases hlt : x < i
  · exact .inl hlt
  · exact .inr (hb.le_closer hm hc (by omega) (by omega))

/-! ## The pass in a header -/

/-- The innermost header in progress is one of the present nesting. -/
structure InHeader (s : Lexed) (isFunc : Bool) (o : Outline) : Prop extends Ordered s o where
  head : ∃ outer, o.headers = ⟨o.depth, o.level, isFunc⟩ :: outer

/-- The pass goes from one place of a header to another. It comes back to the nesting it had, and may have
opened more headers of statements there. -/
structure Keeps (s : Lexed) (o o' : Outline) : Prop extends Goes s o o' where
  depth : o'.depth = o.depth
  openLiterals : o'.openLiterals = o.openLiterals
  headers : ∃ n, o'.headers = List.replicate n ⟨o.depth, o.level, false⟩ ++ o.headers

theorem Keeps.level (h : Keeps s o p) : p.level = o.level := congrArg List.length h.openLiterals

theorem Keeps.refl (s : Lexed) (o : Outline) : Keeps s o o := ⟨.refl s o, rfl, rfl, 0, rfl⟩

theorem Keeps.trans {q : Outline} (h : Keeps s o p) (h' : Keeps s p q) : Keeps s o q := by
  obtain ⟨n, hn⟩ := h.headers
  obtain ⟨n', hn'⟩ := h'.headers
  refine ⟨h.toGoes.trans h'.toGoes, h'.depth.trans h.depth, h'.openLiterals.trans h.openLiterals, n' + n, ?_⟩
  rw [hn', hn, h.depth, h.level, List.replicate_add, List.append_assoc]

theorem Returns.keeps (h : Returns s o p) : Keeps s o p :=
  ⟨h.toGoes, h.depth, h.openLiterals, 0, h.headers⟩

theorem InHeader.returns {isFunc : Bool} (hm : s.IsMatched) (h : InHeader s isFunc o) (hr : Returns s o p) :
    InHeader s isFunc p := by
  obtain ⟨outer, ho⟩ := h.head
  refine ⟨h.goes hm hr.toGoes, outer, ?_⟩
  unfold level
  rw [hr.headers, ho, hr.depth, hr.openLiterals]
  rfl

theorem InHeader.keeps (hm : s.IsMatched) (h : InHeader s false o) (hk : Keeps s o p) :
    InHeader s false p := by
  obtain ⟨outer, ho⟩ := h.head
  obtain ⟨n, hn⟩ := hk.headers
  refine ⟨h.goes hm hk.toGoes, ?_⟩
  rw [hk.depth, hk.level, hn]
  cases n with
  | zero => exact ⟨outer, ho⟩
  | succ n => exact ⟨List.replicate n _ ++ o.headers, rfl⟩

theorem InHeader.headerHere {isFunc : Bool} (h : InHeader s isFunc o) :
    o.headerHere = some ⟨o.depth, o.level, isFunc⟩ := by
  obtain ⟨outer, ho⟩ := h.head
  unfold Outline.headerHere
  rw [ho]
  simp

theorem InHeader.isBlock {isFunc : Bool} (h : InHeader s isFunc o) (type : TypeExpr) :
    o.isBlock type = (isFunc || type.isName) := by
  unfold Outline.isBlock
  rw [h.headerHere]

/-- After `func` nothing is a literal. -/
theorem InHeader.literalHere_eq_none (h : InHeader s true o) : literalHere s o = none := by
  refine Option.eq_none_iff_forall_ne_some.mpr ?_
  rintro ⟨l, lb, rb, ds⟩ he
  obtain ⟨type, -, -, hblock, -⟩ := literalHere_eq_some.mp he
  rw [h.isBlock] at hblock
  cases hblock

/-! ### Steps that come back -/

/-- What steps at quiet tokens change in a header: nothing but the place. -/
theorem InHeader.next_of_isQuiet {isFunc : Bool} (h : InHeader s isFunc o) (hk : t.kind.isQuiet)
    (hi : t.isImplied = false) (hf : isFunc = true → t.kind ≠ .semicolon) :
    nextDepth t o = o.depth ∧ nextOpen t o = o.openLiterals ∧ nextHeaders t o = o.headers := by
  obtain ⟨outer, ho⟩ := h.head
  obtain ⟨kind, start, text⟩ := t
  cases kind with
  | opener b => cases hk
  | closer b => cases hk
  | semicolon =>
    have hfalse : isFunc = false := by simpa using hf
    refine ⟨rfl, rfl, ?_⟩
    simp only [nextHeaders]
    rw [ho, List.dropWhile_cons_of_neg]
    simp [hi, hfalse]
  | keyword w => cases w <;> first | exact ⟨rfl, rfl, rfl⟩ | cases hk
  | _ => exact ⟨rfl, rfl, rfl⟩

theorem returns_of_next (hm : s.IsMatched) (ht : s.tokens[o.index]? = some t)
    (hr : beginsLiteral t.kind = false ∨ literalHere s o = none)
    (hn : nextDepth t o = o.depth ∧ nextOpen t o = o.openLiterals ∧ nextHeaders t o = o.headers) :
    Returns s o (step s t o) ∧ (step s t o).index = nextIndex s t o := by
  have hnext := step_isNext (s := s) hr
  exact ⟨⟨Goes.step hm ht, hnext.depth.trans hn.1, hnext.openLiterals.trans hn.2.1,
    hnext.headers.trans hn.2.2⟩, hnext.index⟩

theorem nextIndex_of_isQuiet (hk : t.kind.isQuiet)
    (hb : t.kind = .keyword .structWord ∨ t.kind = .keyword .interfaceWord →
      s.kindAt (o.index + 1) ≠ some (.opener .brace)) : nextIndex s t o = o.index + 1 := by
  obtain ⟨kind, start, text⟩ := t
  cases kind with
  | keyword w =>
    cases w with
    | structWord => exact if_neg (hb (.inl rfl))
    | interfaceWord => exact if_neg (hb (.inr rfl))
    | packageWord => cases hk
    | importWord => cases hk
    | typeWord => cases hk
    | constWord => cases hk
    | _ => rfl
  | _ => rfl

/-- The body of a struct or an interface is stepped over. -/
theorem returns_body (hm : s.IsMatched) (ht : s.tokens[o.index]? = some t) {w : Keyword}
    (hk : t.kind = .keyword w) (hw : w = .structWord ∨ w = .interfaceWord)
    (hr : beginsLiteral t.kind = false ∨ literalHere s o = none)
    (hb : s.kindAt (o.index + 1) = some (.opener .brace)) (hc : s.closerOf (o.index + 1) = some c) :
    ∃ p, Returns s o p ∧ p.index = c + 1 := by
  have hend : bodyEnd s o.index = c + 1 := by
    unfold bodyEnd Lexed.skipGroup
    rw [if_pos hb, hc]
  have hsame : nextDepth t o = o.depth ∧ nextOpen t o = o.openLiterals ∧ nextHeaders t o = o.headers ∧
      nextIndex s t o = bodyEnd s o.index := by
    obtain ⟨kind, start, text⟩ := t
    cases hk
    rcases hw with rfl | rfl
    · exact ⟨rfl, rfl, rfl, rfl⟩
    · exact ⟨rfl, rfl, rfl, rfl⟩
  obtain ⟨hreturns, hindex⟩ := returns_of_next hm ht hr ⟨hsame.1, hsame.2.1, hsame.2.2.1⟩
  exact ⟨_, hreturns, by rw [hindex, hsame.2.2.2, hend]⟩

/-- Brackets with balanced contents are passed. -/
theorem Ordered.returns_group (hm : s.IsMatched) (h : Ordered s o) (ht : s.tokens[o.index]? = some t)
    {b : Bracket} (hk : t.kind = .opener b) (hb : b ≠ .brace)
    (hr : beginsLiteral t.kind = false ∨ literalHere s o = none) (hc : s.closerOf o.index = some c)
    (inside : s.Balanced (o.index + 1) c) : ∃ p, Returns s o p ∧ p.index = c + 1 := by
  refine returns_nested hm h.headersOver ht hk hb hr hc fun p hpi hpo hph => ?_
  refine passes_balanced hm inside hc (Nat.lt_succ_self _) hpi hph ?_
  rw [hpo]
  exact h.no_brace hm (Nat.lt_succ_self _) inside

/-- A literal with balanced contents is passed. -/
theorem Ordered.returns_literal (hm : s.IsMatched) (h : Ordered s o) {l : CompositeLiteral}
    {ds : List Diagnostic} (ht : s.tokens[o.index]? = some t) (hb : beginsLiteral t.kind)
    (hl : literalHere s o = some (l, b, c, ds)) (inside : s.Balanced (b + 1) c) :
    ∃ p, Returns s o p ∧ p.index = c + 1 := by
  obtain ⟨type, -, -, -, hc, -⟩ := literalHere_eq_some.mp hl
  have hlt := (literalHere_lt hm hl).1
  refine Outline.returns_literal hm h.headersOver ht hb hl fun p hpi hpo hph => ?_
  refine passes_balanced hm inside hc (Nat.lt_succ_self _) hpi hph fun x hx => ?_
  rw [hpo] at hx
  rcases List.mem_cons.mp hx with rfl | hx
  · exact .inr (Nat.le_refl _)
  · exact h.no_brace hm (by omega) inside x hx

/-- The pass goes through the parameters and the result of a function. -/
theorem InHeader.returns_signature (hm : s.IsMatched) (hs : s.Signature i b) (h : InHeader s true o)
    (hi : o.index = i) : ∃ p, Returns s o p ∧ p.index = b := by
  have hnone := h.literalHere_eq_none
  induction hs generalizing o with
  | none => exact ⟨o, ⟨.refl s o, rfl, rfl, rfl⟩, hi⟩
  | plain hk hp hf rest ih =>
    subst hi
    obtain ⟨t, ht, rfl⟩ := Option.map_eq_some_iff.mp hk
    have hquiet := TokenKind.isQuiet_of_isPlain hp hf
    have hplain : t.kind ≠ .semicolon ∧ t.kind ≠ .keyword .structWord ∧ t.kind ≠ .keyword .interfaceWord := by
      refine ⟨?_, ?_, ?_⟩ <;>
        · intro he
          rw [he] at hp
          cases hp
    obtain ⟨hr, hindex⟩ := returns_of_next hm ht (.inr hnone)
      (h.next_of_isQuiet hquiet (by simp [Token.isImplied, hplain.1]) fun _ => hplain.1)
    rw [nextIndex_of_isQuiet hquiet (by simp [hplain])] at hindex
    have h' := h.returns hm hr
    obtain ⟨p, hp, hpb⟩ := ih h' hindex h'.literalHere_eq_none
    exact ⟨p, hr.trans hp, hpb⟩
  | group hk hb hc inside rest ih =>
    subst hi
    obtain ⟨t, ht, hkind⟩ := Option.map_eq_some_iff.mp hk
    obtain ⟨q, hr, hindex⟩ := h.returns_group hm ht hkind hb (.inr hnone) hc inside
    have h' := h.returns hm hr
    obtain ⟨p, hp, hpb⟩ := ih h' hindex h'.literalHere_eq_none
    exact ⟨p, hr.trans hp, hpb⟩
  | body hk hw hb hc inside rest ih =>
    subst hi
    obtain ⟨t, ht, hkind⟩ := Option.map_eq_some_iff.mp hk
    obtain ⟨q, hr, hindex⟩ := returns_body hm ht hkind hw (.inr hnone) hb hc
    have h' := h.returns hm hr
    obtain ⟨p, hp, hpb⟩ := ih h' hindex h'.literalHere_eq_none
    exact ⟨p, hr.trans hp, hpb⟩

/-! ### Blocks -/

/-- The keyword of a statement or of a function opens a header. -/
theorem step_opens (hm : s.IsMatched) (h : Ordered s o) (ht : s.tokens[o.index]? = some t) {isFunc : Bool}
    (hk : t.kind.opensBlock ∧ isFunc = false ∨ t.kind = .keyword .funcWord ∧ isFunc = true) :
    InHeader s isFunc (step s t o) ∧ (step s t o).index = o.index + 1 ∧ (step s t o).depth = o.depth ∧
      (step s t o).openLiterals = o.openLiterals ∧
      (step s t o).headers = ⟨o.depth, o.level, isFunc⟩ :: o.headers := by
  have hkind : beginsLiteral t.kind = false ∧ nextIndex s t o = o.index + 1 ∧ nextDepth t o = o.depth ∧
      nextOpen t o = o.openLiterals ∧ nextHeaders t o = ⟨o.depth, o.level, isFunc⟩ :: o.headers := by
    obtain ⟨kind, start, text⟩ := t
    rcases hk with ⟨hk, rfl⟩ | ⟨rfl, rfl⟩
    · cases kind with
      | keyword w => cases w <;> first | exact ⟨rfl, rfl, rfl, rfl, rfl⟩ | cases hk
      | _ => cases hk
    · exact ⟨rfl, rfl, rfl, rfl, rfl⟩
  obtain ⟨hb, h1, h2, h3, h4⟩ := hkind
  have hn := step_isNext (s := s) (o := o) (t := t) (.inl hb)
  have hd := hn.depth.trans h2
  have ho := hn.openLiterals.trans h3
  have hh := hn.headers.trans h4
  refine ⟨⟨h.step hm, o.headers, ?_⟩, hn.index.trans h1, hd, ho, hh⟩
  unfold level
  rw [hh, hd, ho]
  rfl

/-- A block is passed if its statements are, and its header ends with it. -/
theorem InHeader.keeps_block (hm : s.IsMatched) (h : InHeader s false o) (hg : Goes s o p)
    (hd : p.depth = o.depth) (ho : p.openLiterals = o.openLiterals)
    (hh : ∃ isFunc n, p.headers = ⟨o.depth, o.level, isFunc⟩ ::
      (List.replicate n ⟨o.depth, o.level, false⟩ ++ o.headers))
    (hb : s.kindAt p.index = some (.opener .brace)) (hc : s.closerOf p.index = some c)
    (inside : ∀ q, InHeader s false q → q.index = p.index + 1 → ∃ r, Keeps s q r ∧ r.index = c) :
    ∃ q, Keeps s o q ∧ q.index = c + 1 := by
  obtain ⟨isFunc, n, hh⟩ := hh
  obtain ⟨t, ht, hk⟩ := Option.map_eq_some_iff.mp hb
  obtain ⟨kind, start, text⟩ := t
  cases hk
  have hn := step_isNext (s := s) (o := p) (t := ⟨.opener .brace, start, text⟩) (.inl rfl)
  have hl : p.level = o.level := congrArg List.length ho
  have hhere : p.headerHere.isSome := by
    unfold Outline.headerHere
    rw [hh, hd, hl]
    simp
  have hpop : (step s ⟨.opener .brace, start, text⟩ p).headers =
      List.replicate n ⟨o.depth, o.level, false⟩ ++ o.headers := by
    rw [hn.headers]
    simp only [nextHeaders]
    rw [if_pos hhere, hh]
    rfl
  have henter : Keeps s o (step s ⟨.opener .brace, start, text⟩ p) :=
    ⟨hg.trans (Goes.step hm ht), hn.depth.trans hd, hn.openLiterals.trans ho, n, hpop⟩
  obtain ⟨r, hr, hrc⟩ := inside _ (h.keeps hm henter) hn.index
  have hkeeps := henter.trans hr
  obtain ⟨u, hu, huk⟩ := exists_closer hm hb hc
  rw [← hrc] at hu
  -- a literal in progress has its brace before the block, so it ends behind it
  have hopen : ∀ x ∈ r.openLiterals, x ≠ r.index := by
    rintro x hx rfl
    rw [hkeeps.openLiterals] at hx
    obtain ⟨a, ha, hax⟩ := h.braces _ hx
    rw [hrc] at hax
    have hbefore := hg.index
    obtain ⟨d, hdc, hd'⟩ := hm.inner hax (show a < p.index by omega) (hm.closer_spec hc).1 hb
    rw [hc] at hd'
    cases hd'
    exact absurd hdc (Nat.lt_irrefl _)
  obtain ⟨hleave, hindex⟩ := returns_closeBrace hm hu huk hopen
  exact ⟨_, hkeeps.trans hleave.keeps, by rw [hindex, hrc]⟩

/-! ### The walk through a header -/

/-- Where the pass stands a literal begins whose type reaches a place and goes on from there. -/
def Overruns (s : Lexed) (o : Outline) (j : Nat) : Prop :=
  ∃ t l b c ds, s.tokens[o.index]? = some t ∧ beginsLiteral t.kind ∧
    literalHere s o = some (l, b, c, ds) ∧ Items s j b

/-- A type does not go on from a closing bracket. -/
theorem Overruns.not_closer {b : Bracket} (h : Overruns s o j) (hj : s.kindAt j = some (.closer b)) : False := by
  obtain ⟨t, l, b', c, ds, -, -, hl, hitems⟩ := h
  obtain ⟨type, -, hopen, -⟩ := literalHere_eq_some.mp hl
  rw [← hitems.eq_of_kind hj rfl, hj] at hopen
  cases hopen

/-- A type that goes on from a brace ends there. -/
theorem Overruns.at_brace (h : Overruns s o j) (hj : s.kindAt j = some (.opener .brace)) :
    ∃ t l c ds, s.tokens[o.index]? = some t ∧ beginsLiteral t.kind ∧
      literalHere s o = some (l, j, c, ds) := by
  obtain ⟨t, l, b, c, ds, ht, hb, hl, hitems⟩ := h
  cases hitems.eq_of_kind hj rfl
  exact ⟨t, l, c, ds, ht, hb, hl⟩

/-- The type of a literal in a header is no name. -/
theorem InHeader.isUnnamed (hm : s.IsMatched) (h : InHeader s false o) {l : CompositeLiteral}
    {ds : List Diagnostic} (ht : s.tokens[o.index]? = some t) (hb : beginsLiteral t.kind)
    (hl : literalHere s o = some (l, b, c, ds)) : s.IsUnnamed o.index b := by
  obtain ⟨type, hread, -, hblock, -⟩ := literalHere_eq_some.mp hl
  obtain ⟨htype, hindex⟩ := Lexed.readType_at hm o.index [] o.diagnostics
  rw [hread] at htype hindex
  rw [h.isBlock, Bool.false_or] at hblock
  exact ⟨⟨_, Lexed.kindAt_of_token ht, hb⟩, ⟨type, htype, hblock⟩, hindex⟩

/-- A type that is no name begins a literal in a header too. -/
theorem InHeader.literalHere_of_isUnnamed (hm : s.IsMatched) (h : InHeader s false o)
    (hu : s.IsUnnamed o.index b) (hb : s.kindAt b = some (.opener .brace)) (hc : s.closerOf b = some c) :
    ∃ t l ds, s.tokens[o.index]? = some t ∧ beginsLiteral t.kind ∧
      literalHere s o = some (l, b, c, ds) := by
  obtain ⟨k, hk, hbegins⟩ := hu.begins
  obtain ⟨t, ht, rfl⟩ := Option.map_eq_some_iff.mp hk
  obtain ⟨type, htype, hname⟩ := hu.type
  obtain ⟨htype', hindex⟩ := Lexed.readType_at hm o.index [] o.diagnostics
  rw [htype] at htype'
  rw [hu.index] at hindex
  refine ⟨t, _, (readType s ⟨o.index, o.diagnostics⟩).2.diagnostics, ht, hbegins,
    literalHere_eq_some.mpr ⟨type, ?_, hb, ?_, hc, rfl⟩⟩
  · rw [htype', hindex]
  · rw [h.isBlock, hname]
    rfl

/-- The pass goes through a header to its end, or to a type that reaches over the end. -/
def Walks (s : Lexed) (o : Outline) (j : Nat) : Prop :=
  (∃ p, Keeps s o p ∧ p.index = j) ∨ ∃ p, Keeps s o p ∧ s.Clauses o.index p.index ∧ Overruns s p j

theorem Walks.after (hk : Keeps s o p) (hext : ∀ n, s.Clauses p.index n → s.Clauses o.index n)
    (h : Walks s p j) : Walks s o j := by
  rcases h with ⟨q, hq, hqj⟩ | ⟨q, hq, hclq, hover⟩
  · exact .inl ⟨q, hk.trans hq, hqj⟩
  · exact .inr ⟨q, hk.trans hq, hext _ hclq, hover⟩

/-- At a closing bracket the pass arrives. -/
theorem Walks.to_closer {b : Bracket} (h : Walks s o j) (hj : s.kindAt j = some (.closer b)) :
    ∃ p, Keeps s o p ∧ p.index = j :=
  h.resolve_right fun ⟨_, _, _, hover⟩ => hover.not_closer hj

/-- What a block encloses is passed if it is gone through as a header is. -/
theorem Walks.inside (hm : s.IsMatched) (hc : s.closerOf b = some c) {i : Nat}
    (h : ∀ q, InHeader s false q → q.index = i → Walks s q c) (q : Outline) (hq : InHeader s false q)
    (hi : q.index = i) : ∃ p, Keeps s q p ∧ p.index = c := by
  obtain ⟨-, -, b', -, hclose⟩ := hm.closer_spec hc
  exact (h q hq hi).to_closer hclose

/-- A statement is passed with its block. The type of a literal may end at the brace of the block. -/
theorem InHeader.keeps_statement (hm : s.IsMatched) (h : InHeader s false o) (ht : s.tokens[o.index]? = some t)
    (hw : t.kind.opensBlock) (head : ∀ q, InHeader s false q → q.index = o.index + 1 → Walks s q b)
    (hb : s.kindAt b = some (.opener .brace)) (hc : s.closerOf b = some c) (hbal : s.Balanced (b + 1) c)
    (inside : ∀ q, InHeader s false q → q.index = b + 1 → Walks s q c) :
    ∃ p, Keeps s o p ∧ p.index = c + 1 := by
  obtain ⟨hin, hindex, hd, ho, hh⟩ := step_opens hm h.toOrdered ht (.inl ⟨hw, rfl⟩)
  have hopens : Keeps s o (step s t o) := ⟨Goes.step hm ht, hd, ho, 1, hh⟩
  rcases head _ hin hindex with ⟨p, hp, rfl⟩ | ⟨p, hp, -, hover⟩
  · obtain ⟨n, hn⟩ := hp.headers
    refine h.keeps_block hm (hopens.trans hp).toGoes (hp.depth.trans hd) (hp.openLiterals.trans ho)
      ⟨false, n, ?_⟩ hb hc (Walks.inside hm hc inside)
    rw [hn, hd, hopens.level, hh, ← List.singleton_append, ← List.append_assoc, ← List.replicate_succ']
    rfl
  · obtain ⟨u, l, c', ds, hu, hbegins, hl⟩ := hover.at_brace hb
    obtain ⟨-, -, -, -, hc', -⟩ := literalHere_eq_some.mp hl
    cases hc.symm.trans hc'
    obtain ⟨q, hq, hqc⟩ := (hin.keeps hm hp).returns_literal hm hu hbegins hl hbal
    exact ⟨q, (hopens.trans hp).trans hq.keeps, hqc⟩

/-- A function is passed with its body. -/
theorem InHeader.keeps_function (hm : s.IsMatched) (h : InHeader s false o) (ht : s.tokens[o.index]? = some t)
    (hk : t.kind = .keyword .funcWord) (head : s.Signature (o.index + 1) b)
    (hb : s.kindAt b = some (.opener .brace)) (hc : s.closerOf b = some c)
    (inside : ∀ q, InHeader s false q → q.index = b + 1 → Walks s q c) :
    ∃ p, Keeps s o p ∧ p.index = c + 1 := by
  obtain ⟨hin, hindex, hd, ho, hh⟩ := step_opens hm h.toOrdered ht (.inr ⟨hk, rfl⟩)
  obtain ⟨p, hp, rfl⟩ := hin.returns_signature hm head hindex
  exact h.keeps_block hm ((Goes.step hm ht).trans hp.toGoes) (hp.depth.trans hd)
    (hp.openLiterals.trans ho) ⟨true, 0, hp.headers.trans hh⟩ hb hc (Walks.inside hm hc inside)

/-- A literal that begins in a header has a type that reaches over its end, or is passed. -/
theorem InHeader.passes_literal (hm : s.IsMatched) (hcl : s.Clauses o.index j) (h : InHeader s false o)
    {l : CompositeLiteral} {ds : List Diagnostic} (ht : s.tokens[o.index]? = some t)
    (hbegins : beginsLiteral t.kind) (hl : literalHere s o = some (l, b, c, ds)) :
    Overruns s o j ∨ (∃ p, Keeps s o p ∧ p.index = c + 1) ∧ o.index < c + 1 ∧ s.Clauses (c + 1) j ∧
      ∀ n, s.Clauses (c + 1) n → s.Clauses o.index n := by
  obtain ⟨type, -, hb, -, hc, -⟩ := literalHere_eq_some.mp hl
  have hitems := (h.isUnnamed hm ht hbegins hl).items hm
  have hib := hitems.le hm
  have hbc := (hm.closer_spec hc).1
  rcases hcl.after_items hm hitems hb with hover | ⟨c', hc', inside, hrest, hext⟩
  · exact .inl ⟨t, l, b, c, ds, ht, hbegins, hl, hover⟩
  · cases hc.symm.trans hc'
    obtain ⟨p, hp, hpc⟩ := h.returns_literal hm ht hbegins hl inside
    exact .inr ⟨⟨p, hp.keeps, hpc⟩, by omega, hrest, hext⟩

/-- The pass goes through the clauses of a header. -/
theorem InHeader.walk (hm : s.IsMatched) (hcl : s.Clauses i j) (h : InHeader s false o)
    (hi : o.index = i) : Walks s o j := by
  induction hk : j - i using Nat.strongRecOn generalizing i j o with
  | ind k ih =>
    subst hi
    -- the rest of the header, from further on
    have onwards : ∀ {m : Nat}, (∃ p, Keeps s o p ∧ p.index = m) → o.index < m → s.Clauses m j →
        (∀ n, s.Clauses m n → s.Clauses o.index n) → Walks s o j := by
      rintro _ ⟨p, hp, rfl⟩ hlt hrest hext
      have := hrest.le hm
      exact (ih _ (by omega) hrest (h.keeps hm hp) rfl rfl).after hp hext
    rcases Nat.eq_or_lt_of_le (hcl.le hm) with heq | hlt
    · exact .inl ⟨o, .refl s o, heq⟩
    obtain ⟨t, ht⟩ := hcl.exists_token hlt
    by_cases hr : beginsLiteral t.kind = false ∨ literalHere s o = none
    · cases hcl with
      | none => exact absurd hlt (Nat.lt_irrefl _)
      | single hu hk hi hb hrest =>
        cases ht.symm.trans hu
        obtain ⟨hreturns, hindex⟩ := returns_of_next hm ht hr (h.next_of_isQuiet hk hi (by simp))
        rw [nextIndex_of_isQuiet hk hb] at hindex
        exact onwards ⟨_, hreturns.keeps, hindex⟩ (Nat.lt_succ_self _) hrest fun n hn =>
          .single ht hk hi hb hn
      | group hk hb hc inside hrest =>
        have hic := (hm.closer_spec hc).1
        obtain ⟨p, hp, hpc⟩ := h.returns_group hm ht (Lexed.kind_of_token ht hk) hb hr hc inside
        exact onwards ⟨p, hp.keeps, hpc⟩ (by omega) hrest fun n hn => .group hk hb hc inside hn
      | body hk hw hb hc inside hrest =>
        have hic := (hm.closer_spec hc).1
        obtain ⟨p, hp, hpc⟩ := returns_body hm ht (Lexed.kind_of_token ht hk) hw hr hb hc
        exact onwards ⟨p, hp.keeps, hpc⟩ (by omega) hrest fun n hn => .body hk hw hb hc inside hn
      | declaration hu hd within hrest =>
        cases ht.symm.trans hu
        have hle := within.le hm
        obtain ⟨hreturns, hindex⟩ := returns_of_next hm ht hr (next_of_isDeclaring hd o)
        rw [nextIndex_at hm ht] at hindex
        exact onwards ⟨_, hreturns.keeps, hindex⟩ (by omega) hrest fun n hn =>
          .declaration ht hd within hn
      | literal hu within hb hc =>
        obtain ⟨t', l, ds, ht', hbegins, hl⟩ := h.literalHere_of_isUnnamed hm hu hb hc
        cases ht.symm.trans ht'
        rw [hbegins, hl] at hr
        simp at hr
      | block hk hw head hb hc inside hrest =>
        have hle := hrest.le hm
        have hib := head.le hm
        have hbc := (hm.closer_spec hc).1
        have hpassed := h.keeps_statement hm ht (Lexed.kind_of_token ht hk ▸ hw)
          (fun q hq hqi => ih _ (by omega) head hq hqi rfl) hb hc inside.balanced
          (fun q hq hqi => ih _ (by omega) inside hq hqi rfl)
        exact onwards hpassed (by omega) hrest fun n hn => .block hk hw head hb hc inside hn
      | func hk head hb hc inside hrest =>
        have hle := hrest.le hm
        have hib := head.balanced.le hm
        have hbc := (hm.closer_spec hc).1
        have hpassed := h.keeps_function hm ht (Lexed.kind_of_token ht hk) head hb hc
          (fun q hq hqi => ih _ (by omega) inside hq hqi rfl)
        exact onwards hpassed (by omega) hrest fun n hn => .func hk head hb hc inside hn
    · rw [not_or, Bool.not_eq_false] at hr
      obtain ⟨hbegins, hsome⟩ := hr
      obtain ⟨⟨l, b, c, ds⟩, hl⟩ := Option.ne_none_iff_exists'.mp hsome
      rcases h.passes_literal hm hcl ht hbegins hl with hover | ⟨hpassed, hlt, hrest, hext⟩
      · exact .inr ⟨o, .refl s o, .none _, hover⟩
      · exact onwards hpassed hlt hrest hext

/-! ### What is recorded -/

theorem Nested.goes (hs : s.IsRead) (h : Nested s o) (hg : Goes s o p) : Nested s p := by
  obtain ⟨n, rfl⟩ := hg.reaches
  exact h.run hs n

theorem finish_run (hm : s.IsMatched) (n : Nat) (o : Outline) : finish s (run s n o) = finish s o := by
  induction n generalizing o with
  | zero => rfl
  | succ n ih =>
    rw [Outline.run]
    cases ht : s.tokens[o.index]? with
    | none => rfl
    | some t => exact (ih (step s t o)).trans (finish_step hm ht).symm

/-- The literal at the place of the pass is recorded. -/
theorem mem_finish (hm : s.IsMatched) {l : CompositeLiteral} {ds : List Diagnostic}
    (ht : s.tokens[o.index]? = some t) (hb : beginsLiteral t.kind)
    (hl : literalHere s o = some (l, b, c, ds)) : l ∈ (finish s o).literals := by
  obtain ⟨new, hnew, -⟩ := finish_literals hm (step s t o)
  rw [finish_step hm ht, hnew, step_literal hb hl]
  simp

/-- A brace that the pass comes to stand at is not that of a literal. -/
theorem Nested.lbrace_ne (hs : s.IsRead) (h : Nested s o) (hsize : o.index < s.size)
    {l : CompositeLiteral} (hl : l ∈ (finish s o).literals) : l.lbrace ≠ s.startAt o.index := by
  obtain ⟨i, lb, rb, hstands, -⟩ := (h.run hs s.size).stands l hl
  have hfirst := (hstands.start_lt_lbrace hs).1
  obtain ⟨new, hnew, hbehind⟩ := finish_literals hs.matched o
  rw [hnew] at hl
  rcases List.mem_append.mp hl with hl | hl
  · -- it was recorded before, so its brace stands before
    obtain ⟨i, lb, rb, hstands, hlt⟩ := h.stands l hl
    have := hs.start_lt_start hlt hsize hstands.opens (by simp)
    rw [hstands.lbrace_eq]
    omega
  · -- it is recorded from here on, so even its type does
    obtain ⟨i, hi, hisize, hstart⟩ := hbehind l hl
    have hle : s.startAt o.index ≤ s.startAt i := hs.start_le_start hi hisize
    have : l.span.start = s.startAt i := hstart
    omega

/-- What the brace at the end of a header is taken for. -/
theorem InHeader.isLiteral_iff (hs : s.IsRead) (hn : Nested s o) (h : InHeader s false o)
    (hcl : s.Clauses o.index b) (hb : s.kindAt b = some (.opener .brace)) (hc : s.closerOf b = some c) :
    (∃ l ∈ (finish s o).literals, l.lbrace = s.startAt b) ↔
      ∃ i, s.Clauses o.index i ∧ s.IsUnnamed i b := by
  have hm := hs.matched
  constructor
  · rintro ⟨l, hl, hlb⟩
    rcases h.walk hm hcl rfl with ⟨p, hp, rfl⟩ | ⟨p, hp, hcl', hover⟩
    · rw [hp.finish] at hl
      exact absurd hlb ((hn.goes hs hp.toGoes).lbrace_ne hs (Lexed.kindAt_lt hb) hl)
    · obtain ⟨t, l', c', ds, ht, hbegins, hl'⟩ := hover.at_brace hb
      exact ⟨p.index, hcl', (h.keeps hm hp).isUnnamed hm ht hbegins hl'⟩
  · rintro ⟨i, hcl', hunnamed⟩
    -- the pass comes to the type, or to a longer one that it is part of
    obtain ⟨p, t, l, c', ds, hp, ht, hbegins, hl⟩ : ∃ p t l c' ds, Keeps s o p ∧
        s.tokens[p.index]? = some t ∧ beginsLiteral t.kind ∧ literalHere s p = some (l, b, c', ds) := by
      rcases h.walk hm hcl' rfl with ⟨p, hp, rfl⟩ | ⟨p, hp, -, t, l, b', c', ds, ht, hbegins, hl, hitems⟩
      · obtain ⟨t, l, ds, ht, hbegins, hl⟩ := (h.keeps hm hp).literalHere_of_isUnnamed hm hunnamed hb hc
        exact ⟨p, t, l, c, ds, hp, ht, hbegins, hl⟩
      · obtain ⟨-, -, hb', -⟩ := literalHere_eq_some.mp hl
        cases hitems.unique (hunnamed.items hm) hb' hb
        exact ⟨p, t, l, c', ds, hp, ht, hbegins, hl⟩
    obtain ⟨type, -, -, -, -, rfl⟩ := literalHere_eq_some.mp hl
    exact ⟨_, hp.finish ▸ mem_finish hm ht hbegins hl, rfl⟩

end Outline

/-! ## The block of a statement -/

namespace SourceFile

/-- A statement whose keyword the pass comes to stand at, with a header that ends at the brace of its
block. -/
structure HasBlock (text : List Char) (k b : Nat) : Prop where
  visited : ∃ n, (Outline.run (Lexed.ofText text).1 n (Outline.start (Lexed.ofText text).2)).index = k
  keyword : ∃ w, (Lexed.ofText text).1.kindAt k = some w ∧ w.opensBlock
  header : (Lexed.ofText text).1.Clauses (k + 1) b
  opens : (Lexed.ofText text).1.kindAt b = some (.opener .brace)
  closes : ∃ c, (Lexed.ofText text).1.closerOf b = some c

/-- The brace of a block is taken for that of a literal exactly when a type other than a name ends at it that
begins at the level of the header. -/
theorem block_isLiteral_iff {text : List Char} {k b : Nat} (h : HasBlock text k b) :
    (∃ l ∈ (parse text).literals, l.lbrace = (Lexed.ofText text).1.startAt b) ↔
      ∃ i, (Lexed.ofText text).1.Clauses (k + 1) i ∧ (Lexed.ofText text).1.IsUnnamed i b := by
  obtain ⟨n, rfl⟩ := h.visited
  obtain ⟨w, hkind, hw⟩ := h.keyword
  obtain ⟨c, hc⟩ := h.closes
  have hs := Lexed.isRead_ofText text
  have hnested := (Outline.nested_start (Lexed.ofText text).1 (Lexed.ofText text).2).run hs n
  have hordered := (Outline.ordered_start (Lexed.ofText text).1 (Lexed.ofText text).2).run hs.matched n
  obtain ⟨t, ht, rfl⟩ := Option.map_eq_some_iff.mp hkind
  obtain ⟨hin, hindex, -⟩ := Outline.step_opens hs.matched hordered ht (.inl ⟨hw, rfl⟩)
  rw [parse_literals, ← Outline.finish_run hs.matched n, Outline.finish_step hs.matched ht, ← hindex]
  exact hin.isLiteral_iff hs (hnested.step hs ht) (hindex ▸ h.header) h.opens hc

/-- A statement that calls an element of a slice in its header. -/
def indexedCall : List Char := "package p\nfunc f() \x7b\n\tif a[i](x) \x7b\n\t\x7d\n\x7d\n".toList

theorem kinds_indexedCall :
    (Lexed.ofText indexedCall).1.tokens[9]? = some ⟨.ident, 25, ['a']⟩ ∧
      (∀ e ∈ [(8, TokenKind.keyword .ifWord), (10, .opener .square), (11, .ident), (13, .opener .paren),
        (14, .ident), (16, .opener .brace)], (Lexed.ofText indexedCall).1.kindAt e.1 = some e.2) ∧
      (∀ e ∈ [(10, 12), (13, 15), (16, 17)], (Lexed.ofText indexedCall).1.closerOf e.1 = some e.2) := by
  decide +kernel

theorem reads_indexedCall :
    (Outline.run (Lexed.ofText indexedCall).1 7 (Outline.start (Lexed.ofText indexedCall).2)).index = 8 ∧
      (readType (Lexed.ofText indexedCall).1 ⟨10, []⟩).1.map (·.isName) = some false ∧
      (readType (Lexed.ofText indexedCall).1 ⟨10, []⟩).2.index = 16 := by
  decide +kernel

theorem clauses_indexedCall {j : Nat} (h : (Lexed.ofText indexedCall).1.Clauses 10 j) :
    (Lexed.ofText indexedCall).1.Clauses 9 j :=
  .single kinds_indexedCall.1 rfl rfl (by simp) h

theorem isUnnamed_indexedCall : (Lexed.ofText indexedCall).1.IsUnnamed 10 16 := by
  obtain ⟨-, hkinds, -⟩ := kinds_indexedCall
  obtain ⟨-, htype, hindex⟩ := reads_indexedCall
  exact ⟨⟨.opener .square, hkinds (10, _) (by simp), rfl⟩, Option.map_eq_some_iff.mp htype, hindex⟩

theorem hasBlock_indexedCall : HasBlock indexedCall 8 16 := by
  obtain ⟨-, hkinds, hclosers⟩ := kinds_indexedCall
  refine ⟨⟨7, reads_indexedCall.1⟩, ⟨.keyword .ifWord, hkinds (8, _) (by simp), rfl⟩,
    clauses_indexedCall ?_, hkinds (16, _) (by simp), 17, hclosers (16, _) (by simp)⟩
  refine .group (hkinds (10, .opener .square) (by simp)) (by decide) (hclosers (10, 12) (by simp)) ?_ ?_
  · exact .single (hkinds (11, .ident) (by simp)) rfl (.none 12)
  · refine .group (hkinds (13, .opener .paren) (by simp)) (by decide) (hclosers (13, 15) (by simp)) ?_
      (.none 16)
    exact .single (hkinds (14, .ident) (by simp)) rfl (.none 15)

/-- The index and the call before the block are read as an array of a type in parentheses. -/
theorem block_isLiteral_indexedCall : HasBlock indexedCall 8 16 ∧
    ∃ l ∈ (parse indexedCall).literals, l.lbrace = (Lexed.ofText indexedCall).1.startAt 16 :=
  ⟨hasBlock_indexedCall,
    (block_isLiteral_iff hasBlock_indexedCall).mpr ⟨10, clauses_indexedCall (.none 10), isUnnamed_indexedCall⟩⟩

end SourceFile

end LiteralFill
