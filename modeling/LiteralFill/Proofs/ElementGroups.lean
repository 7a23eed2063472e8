import LiteralFill.Proofs.Bodies
import LiteralFill.Proofs.Paired
import Mathlib.Data.List.Forall2

/-!
The elements of a literal as a cut of its tokens. The tokens between the braces are cut at the commas outside
inner brackets, semicolons outside them are left out, and each piece that holds a token is one element. A colon
outside inner brackets ends its key.
-/

namespace LiteralFill

/-! ## Cutting a list -/

/-- A cut keeps the order and drops only where it cuts. -/
theorem flatten_splitOnP {α : Type} (p : α → Bool) (l : List α) :
    (l.splitOnP p).flatten = l.filter fun a => !p a := by
  induction l with
  | nil => rfl
  | cons a l ih =>
    rw [List.splitOnP_cons_eq_if_modifyHead]
    cases hp : p a with
    | true => simpa [hp] using ih
    | false =>
      obtain ⟨piece, pieces, he⟩ := List.exists_cons_of_ne_nil (List.splitOnP_ne_nil p l)
      rw [he] at ih ⊢
      simpa [hp] using ih

theorem range'_split {i j k : Nat} (hij : i ≤ j) (hjk : j ≤ k) :
    List.range' i (k - i) = List.range' i (j - i) ++ List.range' j (k - j) := by
  rw [← show j - i + (k - j) = k - i by omega, ← List.range'_append_1, show i + (j - i) = j by omega]

/-- What does not satisfy a test does not matter to the search for the first that does. -/
theorem find?_range'_skip {p : Nat → Bool} {i j k : Nat} (hij : i ≤ j) (hjk : j ≤ k)
    (h : ∀ n, i ≤ n → n < j → p n = false) :
    (List.range' i (k - i)).find? p = (List.range' j (k - j)).find? p := by
  have hnone : (List.range' i (j - i)).find? p = none := by
    rw [List.find?_eq_none]
    intro n hn
    rw [List.mem_range'_1] at hn
    simp [h n hn.1 (by omega)]
  rw [range'_split hij hjk, List.find?_append, hnone, Option.none_or]

/-! ## Groups of tokens -/

namespace Lexed

/-- Brackets that open behind `lbrace` and before a token are open there. -/
def isInner (s : Lexed) (lbrace i : Nat) : Bool :=
  (List.range' (lbrace + 1) (i - (lbrace + 1))).any fun o => (s.closerOf o).any (i ≤ ·)

/-- A token of a kind that stands outside the brackets that open behind `lbrace`. -/
def isOuter (s : Lexed) (lbrace : Nat) (kind : TokenKind) (i : Nat) : Bool :=
  s.kindAt i == some kind && !s.isInner lbrace i

/-- Tokens cut at the outer commas, without the outer semicolons and without empty pieces. -/
def groupsOf (s : Lexed) (lbrace : Nat) (tokens : List Nat) : List (List Nat) :=
  ((tokens.splitOnP (s.isOuter lbrace .comma)).map
    (List.filter fun i => !s.isOuter lbrace .semicolon i)).filter (!·.isEmpty)

/-- The tokens between two braces in groups. -/
def elementGroups (s : Lexed) (lbrace rbrace : Nat) : List (List Nat) :=
  s.groupsOf lbrace (List.range' (lbrace + 1) (rbrace - (lbrace + 1)))

variable {s : Lexed} {lbrace : Nat}

theorem isInner_eq_false {i : Nat} : s.isInner lbrace i = false ↔ s.IsClear lbrace i := by
  simp only [isInner, List.any_eq_false, List.mem_range'_1, Option.any_eq_true, decide_eq_true_eq, not_exists,
    not_and, Nat.not_le]
  constructor
  · intro h o c hlo hoi hc
    exact h o ⟨hlo, by omega⟩ c hc
  · intro h o ho c hc
    exact h o c (by omega) (by omega) hc

theorem isOuter_iff {kind : TokenKind} {i : Nat} :
    s.isOuter lbrace kind i = true ↔ s.kindAt i = some kind ∧ s.IsClear lbrace i := by
  rw [isOuter, Bool.and_eq_true, beq_iff_eq, Bool.not_eq_true', isInner_eq_false]

theorem groupsOf_cut {c : Nat} (hc : s.isOuter lbrace .comma c = true) (before after : List Nat) :
    s.groupsOf lbrace (before ++ c :: after) = s.groupsOf lbrace before ++ s.groupsOf lbrace after := by
  rw [groupsOf, List.splitOnP_append_cons before after hc, List.map_append, List.filter_append]
  rfl

theorem groupsOf_piece {tokens : List Nat} (h : ∀ i ∈ tokens, s.isOuter lbrace .comma i = false) :
    s.groupsOf lbrace tokens = [tokens.filter fun i => !s.isOuter lbrace .semicolon i].filter (!·.isEmpty) := by
  rw [groupsOf, List.splitOnP_eq_singleton h]
  rfl

/-- Every token that neither separates nor is an outer semicolon is in a group, in its place. -/
theorem flatten_groupsOf (tokens : List Nat) : (s.groupsOf lbrace tokens).flatten =
    tokens.filter fun i => !s.isOuter lbrace .comma i && !s.isOuter lbrace .semicolon i := by
  rw [groupsOf, List.flatten_filter_not_isEmpty, ← List.filter_flatten, flatten_splitOnP, List.filter_filter]
  exact List.filter_congr fun i _ => Bool.and_comm ..

/-! ## The key of a group -/

/-- The search for the colon of a key finds the first outer colon, or none. -/
theorem keyColon_eq (hm : s.IsMatched) {first last rbrace fuel i : Nat} (hbrace : s.closerOf lbrace = some rbrace)
    (hlast : s.IsClear lbrace (last + 1)) (hlt : last < rbrace) (hli : lbrace < i) (hfi : first ≤ i)
    (hi : s.IsClear lbrace i) (hfuel : last + 1 ≤ i + fuel) :
    keyColon s first last fuel i =
      (List.range' (max i (first + 1)) (last + 1 - max i (first + 1))).find? (s.isOuter lbrace .colon) := by
  induction fuel generalizing i with
  | zero =>
    rw [keyColon, show last + 1 - max i (first + 1) = 0 by omega]
    rfl
  | succ fuel ih =>
    -- No outer colon stands before the place where the search goes on.
    have hnext : ∀ j, i < j → s.IsClear lbrace j → j ≤ last + 1 →
        (∀ n, max i (first + 1) ≤ n → n < j → s.isOuter lbrace .colon n = false) →
        keyColon s first last fuel j =
          (List.range' (max i (first + 1)) (last + 1 - max i (first + 1))).find? (s.isOuter lbrace .colon) := by
      intro j hij hj hjl hnone
      rw [ih (by omega) (by omega) hj (by omega)]
      rcases Nat.lt_or_ge j (max i (first + 1)) with hlt | hge
      · rw [show max j (first + 1) = max i (first + 1) by omega]
      · rw [show max j (first + 1) = j by omega]
        exact (find?_range'_skip hge hjl hnone).symm
    rw [keyColon]
    split
    · next hle =>
      split
      · next hcolon =>
        split
        · next hfirst =>
          have hout : s.isOuter lbrace .colon i = true := isOuter_iff.mpr ⟨hcolon, hi⟩
          rw [show max i (first + 1) = i by omega, show last + 1 - i = last - i + 1 by omega, List.range'_succ,
            List.find?_cons, hout]
        · refine hnext (i + 1) (Nat.lt_succ_self i) (hi.succ (by rw [hm i, hcolon])) (by omega) fun n h1 h2 => ?_
          omega
      · next b hopen =>
        obtain ⟨c, hcr, hc⟩ := hm.inner hbrace hli (by omega) hopen
        have hic := (hm.closer_spec hc).1
        have hcl : c < last + 1 := hlast i c hli (by omega) hc
        rw [skipGroup, hc]
        refine hnext (c + 1) (by omega) (hi.past hm hc) hcl fun n h1 h2 => ?_
        refine Bool.eq_false_iff.mpr fun hout => ?_
        obtain ⟨hcolon, hclear⟩ := isOuter_iff.mp hout
        rcases Nat.lt_or_ge i n with hin | hni
        · exact absurd (hclear i c hli hin hc) (by omega)
        · obtain rfl : n = i := by omega
          rw [hopen] at hcolon
          cases hcolon
      · next hno hno' =>
        have hclosed : s.closerOf i = none := by
          rw [hm i]
          split
          · next b hb => exact absurd hb (hno' b)
          · rfl
        refine hnext (i + 1) (Nat.lt_succ_self i) (hi.succ hclosed) (by omega) fun n h1 h2 => ?_
        obtain rfl : n = i := by omega
        exact Bool.eq_false_iff.mpr fun hout => hno (isOuter_iff.mp hout).1
    · rw [show last + 1 - max i (first + 1) = 0 by omega]
      rfl

end Lexed

/-! ## Elements and their groups -/

/-- An element whose key ends before a colon: the key is the text from the first token up to the colon, and the
value begins with the first thing behind it that is not blank. -/
structure IsKeyed (s : Lexed) (first colon last : Nat) (e : Element) : Prop where
  key : e.key = some ⟨s.textBetween first (colon - 1), ⟨s.startAt first, s.stopAt (colon - 1)⟩,
    colon == first + 1 && s.kindAt first == some .ident⟩
  value : colon < last → ∃ blanks rest, slice s.text ⟨s.stopAt colon, s.startAt (colon + 1)⟩ = blanks ++ rest ∧
    (∀ c ∈ blanks, isBlank c = true) ∧ (∀ c ∈ rest.head?, isBlank c = false) ∧
    e.value = ⟨s.stopAt colon + byteLength blanks, s.stopAt last⟩
  no_value : colon = last → e.value = .empty (s.stopAt colon)

/-- An element of the tokens of a group, which begin with `first`. -/
structure ReadsGroup (s : Lexed) (lbrace first : Nat) (rest : List Nat) (e : Element) : Prop where
  span : e.span = ⟨s.startAt first, s.stopAt (rest.getLastD first)⟩
  ends : s.kindAt first ≠ some .semicolon ∧ s.kindAt (rest.getLastD first) ≠ some .semicolon
  positional : rest.find? (s.isOuter lbrace .colon) = none → e.key = none ∧ e.value = e.span
  keyed : ∀ colon, rest.find? (s.isOuter lbrace .colon) = some colon →
    IsKeyed s first colon (rest.getLastD first) e

/-- An element is made of a group of tokens. -/
def IsElementOf (s : Lexed) (lbrace : Nat) : List Nat → Element → Prop
  | [], _ => False
  | first :: rest, e => ReadsGroup s lbrace first rest e

section

variable {s : Lexed} (hm : s.IsMatched) {lbrace rbrace : Nat}
include hm

/-- Semicolons behind a place outside inner brackets are left out. -/
theorem filter_semicolons {i j : Nat} (hi : s.IsClear lbrace i)
    (h : ∀ k, i ≤ k → k < j → s.kindAt k = some .semicolon) :
    ((List.range' i (j - i)).filter fun k => !s.isOuter lbrace .semicolon k) = [] := by
  rw [List.filter_eq_nil_iff]
  intro k hk
  rw [List.mem_range'_1] at hk
  have hclear : s.IsClear lbrace k := hi.extend hm (fun n h1 h2 b => by simp [h n h1 (by omega)]) hk.1
  simp [Lexed.isOuter_iff.mpr ⟨h k hk.1 (by omega), hclear⟩]

omit hm in
/-- Leaving out semicolons does not change which colon is the first. -/
theorem find?_filter_semicolons (tokens : List Nat) :
    (tokens.filter fun k => !s.isOuter lbrace .semicolon k).find? (s.isOuter lbrace .colon) =
      tokens.find? (s.isOuter lbrace .colon) := by
  rw [List.find?_filter]
  congr 1
  funext k
  cases hcolon : s.isOuter lbrace .colon k with
  | false => simp
  | true =>
    have hk := (Lexed.isOuter_iff.mp hcolon).1
    simp [Lexed.isOuter, hk]

omit hm in
/-- A key that the search finds and the value behind its colon. -/
theorem readElement_isKeyed {first last gapStart colon : Nat} {comma : Option Nat}
    (hcolon : keyColon s first last (last + 1 - first) first = some colon) :
    IsKeyed s first colon last (readElement s rbrace gapStart first last comma).1 := by
  have hkey : elementKey s first last =
      (some ⟨s.textBetween first (colon - 1), ⟨s.startAt first, s.stopAt (colon - 1)⟩,
        colon == first + 1 && s.kindAt first == some .ident⟩, if colon < last then some (colon + 1) else none) := by
    rw [elementKey, hcolon]
  have hvalue : (readElement s rbrace gapStart first last comma).1.value =
      valueSpan s (elementKey s first last).1 (elementKey s first last).2 last := rfl
  rw [hkey] at hvalue
  refine ⟨congrArg (·.1) hkey, fun hlt => ?_, fun heq => ?_⟩
  · generalize hgap : slice s.text ⟨s.stopAt colon, s.startAt (colon + 1)⟩ = gap
    have hsplit : gap.takeWhile isBlank ++ gap.dropWhile isBlank = gap := List.takeWhile_append_dropWhile
    have hlength := byteLength_append (gap.takeWhile isBlank) (gap.dropWhile isBlank)
    rw [hsplit] at hlength
    refine ⟨gap.takeWhile isBlank, gap.dropWhile isBlank, hsplit.symm, fun c hc => List.mem_takeWhile_imp hc,
      fun c hc => ?_, ?_⟩
    · have := List.head?_dropWhile_not isBlank gap
      rw [hc] at this
      simpa using this
    · rw [hvalue, if_pos hlt]
      simp only [valueSpan, Nat.add_sub_cancel, hgap, trimStart]
      rw [hlength, Nat.add_sub_cancel]
  · rw [hvalue, if_neg (by omega), heq]
    rfl

namespace IsElement

variable {i stop first last : Nat} (h : IsElement s lbrace i stop first last)
include h

/-- What is found between outer commas is a group of tokens. -/
theorem group_eq (hi : s.IsClear lbrace i) :
    ((List.range' i (stop - i)).filter fun k => !s.isOuter lbrace .semicolon k) =
      first :: (List.range' (first + 1) (last - first)).filter fun k => !s.isOuter lbrace .semicolon k := by
  have h1 := h.le_first
  have h2 := h.first_le_last
  have h3 := h.last_lt
  have hfirst : s.isOuter lbrace .semicolon first = false :=
    Bool.eq_false_iff.mpr fun hout => h.first_kind.1 (Lexed.isOuter_iff.mp hout).1
  rw [range'_split h1 (show first ≤ stop by omega), List.filter_append, filter_semicolons hm hi h.before,
    List.nil_append, range'_split (show first ≤ last + 1 by omega) h3, List.filter_append,
    filter_semicolons hm h.clear_last fun k hk => h.after k hk, List.append_nil,
    show last + 1 - first = last - first + 1 by omega, List.range'_succ, List.filter_cons, hfirst]
  rfl

omit hm in
theorem getLastD_eq :
    ((List.range' (first + 1) (last - first)).filter fun k => !s.isOuter lbrace .semicolon k).getLastD first =
      last := by
  have hlast : s.isOuter lbrace .semicolon last = false :=
    Bool.eq_false_iff.mpr fun hout => h.last_kind.1 (Lexed.isOuter_iff.mp hout).1
  rcases Nat.eq_or_lt_of_le h.first_le_last with rfl | hlt
  · rw [Nat.sub_self]
    rfl
  · obtain ⟨n, rfl⟩ : ∃ n, last = first + 1 + n := ⟨last - (first + 1), by omega⟩
    rw [show first + 1 + n - first = n + 1 by omega, List.range'_1_concat, List.filter_append,
      List.filter_cons_of_pos (by simp [hlast]), List.filter_nil, List.getLastD_concat]

variable (hbrace : s.closerOf lbrace = some rbrace)
include hbrace

/-- The colon that ends the key is the first outer one behind the first token. -/
theorem keyColon_eq_find? (hli : lbrace < i) (hle : stop ≤ rbrace) :
    keyColon s first last (last + 1 - first) first =
      ((List.range' (first + 1) (last - first)).filter fun k => !s.isOuter lbrace .semicolon k).find?
        (s.isOuter lbrace .colon) := by
  have h1 := h.le_first
  have h2 := h.first_le_last
  have h3 := h.last_lt
  rw [find?_filter_semicolons, Lexed.keyColon_eq hm hbrace h.clear_last (by omega) (by omega) (Nat.le_refl _)
    h.clear_first (by omega), show max first (first + 1) = first + 1 by omega,
    show last + 1 - (first + 1) = last - first by omega]

/-- The element that is read between outer commas is that of its group. -/
theorem readElement_isElementOf (hli : lbrace < i) (hle : stop ≤ rbrace) (hi : s.IsClear lbrace i)
    (gapStart : Nat) (comma : Option Nat) :
    IsElementOf s lbrace ((List.range' i (stop - i)).filter fun k => !s.isOuter lbrace .semicolon k)
      (readElement s rbrace gapStart first last comma).1 := by
  rw [h.group_eq hm hi]
  have hcolon := h.keyColon_eq_find? hm hbrace hli hle
  refine ⟨?_, ?_, fun hnone => ?_, fun colon hsome => ?_⟩
  · rw [h.getLastD_eq]
    rfl
  · rw [h.getLastD_eq]
    exact ⟨h.first_kind.1, h.last_kind.1⟩
  · have hkey : elementKey s first last = (none, some first) := by rw [elementKey, hcolon, hnone]
    refine ⟨congrArg (·.1) hkey, ?_⟩
    show valueSpan s (elementKey s first last).1 (elementKey s first last).2 last = _
    rw [hkey]
    rfl
  · rw [h.getLastD_eq]
    exact readElement_isKeyed (hcolon.trans hsome)

end IsElement

namespace IsPiece

variable {i stop : Nat} {extent : Option (Nat × Nat)}

omit hm in
/-- A piece is what stands up to the first outer comma. -/
theorem no_cut (h : IsPiece s lbrace i stop extent) :
    ∀ j ∈ List.range' i (stop - i), s.isOuter lbrace .comma j = false := by
  intro j hj
  rw [List.mem_range'_1] at hj
  refine Bool.eq_false_iff.mpr fun hout => ?_
  obtain ⟨hk, hclear⟩ := Lexed.isOuter_iff.mp hout
  exact h.noComma j hj.1 (by omega) hclear hk

theorem groupsOf_none (h : IsPiece s lbrace i stop none) : s.groupsOf lbrace (List.range' i (stop - i)) = [] := by
  rw [Lexed.groupsOf_piece h.no_cut, filter_semicolons hm h.clear h.isExtent]
  rfl

theorem groupsOf_some {first last : Nat} (h : IsPiece s lbrace i stop (some (first, last))) :
    s.groupsOf lbrace (List.range' i (stop - i)) =
      [(List.range' i (stop - i)).filter fun k => !s.isOuter lbrace .semicolon k] := by
  rw [Lexed.groupsOf_piece h.no_cut, IsElement.group_eq hm h.isExtent h.clear]
  rfl

omit hm in
/-- The groups from a piece on are its own and those behind its comma. -/
theorem groupsOf_cut (h : IsPiece s lbrace i stop extent) (hlt : stop < rbrace) (hcomma : s.kindAt stop = some .comma) :
    s.groupsOf lbrace (List.range' i (rbrace - i)) =
      s.groupsOf lbrace (List.range' i (stop - i)) ++
        s.groupsOf lbrace (List.range' (stop + 1) (rbrace - (stop + 1))) := by
  rw [← Lexed.groupsOf_cut (Lexed.isOuter_iff.mpr ⟨hcomma, h.clear_stop⟩)]
  congr 1
  rw [range'_split h.le_stop (Nat.le_of_lt hlt), show rbrace - stop = rbrace - (stop + 1) + 1 by omega,
    List.range'_succ]

end IsPiece

variable (hbrace : s.closerOf lbrace = some rbrace)
include hbrace

/-- The elements that are read from a place on are the groups of the tokens from there on. -/
theorem ReadsElements.isElementOf {i gap next : Nat} {es : List Element}
    (h : ReadsElements s lbrace rbrace i gap es next) :
    List.Forall₂ (IsElementOf s lbrace) (s.groupsOf lbrace (List.range' i (rbrace - i))) es := by
  induction h with
  | nil piece =>
    rw [piece.groupsOf_none hm]
    exact .nil
  | @last i gap _ _ _ _ piece read =>
    rw [piece.groupsOf_some hm]
    have helement := IsElement.readElement_isElementOf hm piece.isExtent hbrace piece.behind (Nat.le_refl _)
      piece.clear gap none
    rw [read] at helement
    exact .cons helement .nil
  | skip piece lt comma rest ih =>
    rw [piece.groupsOf_cut lt comma, piece.groupsOf_none hm]
    exact ih
  | @cons i gap stop _ _ _ _ _ _ piece lt comma read rest ih =>
    rw [piece.groupsOf_cut lt comma, piece.groupsOf_some hm]
    have helement := IsElement.readElement_isElementOf hm piece.isExtent hbrace piece.behind (Nat.le_of_lt lt)
      piece.clear gap (some stop)
    rw [read] at helement
    exact .cons helement ih

/-- The elements between two braces are the groups of the tokens there. -/
theorem splitElements_isElementOf :
    List.Forall₂ (IsElementOf s lbrace) (s.elementGroups lbrace rbrace) (splitElements s lbrace rbrace).1 := by
  obtain ⟨next, hread, -⟩ := splitElements_readsElements hm hbrace
  exact ReadsElements.isElementOf hm hbrace hread

end

/-! ## Every token in one element -/

/-- A token of a group, or one between two of them. -/
def Covers (group : List Nat) (i : Nat) : Prop := (∃ j ∈ group, j ≤ i) ∧ ∃ j ∈ group, i ≤ j

/-- The tokens of a text stand in their order, and only semicolons may be empty. -/
structure Lexed.IsOrdered (s : Lexed) : Prop where
  stop_le_start : ∀ i j, i < j → j < s.size → s.stopAt i ≤ s.startAt j
  start_lt_stop : ∀ i k, s.kindAt i = some k → k ≠ .semicolon → s.startAt i < s.stopAt i

theorem Lexed.IsRead.isOrdered {s : Lexed} (hs : s.IsRead) : s.IsOrdered where
  stop_le_start _ _ := hs.stop_le_start
  start_lt_stop i k hk hne := by
    obtain ⟨t, ht⟩ := exists_token (kindAt_lt hk)
    have hkind := kind_of_token ht hk
    have hpos := byteLength_pos (hs.text_ne_nil ht (hkind ▸ hne))
    simp only [startAt, stopAt, ht, Option.map_some, Option.getD_some, Token.stop]
    omega

theorem Lexed.IsOrdered.start_le_start {s : Lexed} (h : s.IsOrdered) {i j : Nat} (hij : i ≤ j) (hj : j < s.size) :
    s.startAt i ≤ s.startAt j := by
  rcases Nat.eq_or_lt_of_le hij with rfl | hlt
  · exact Nat.le_refl _
  · exact Nat.le_trans (start_le_stop (Nat.lt_trans hlt hj)) (h.stop_le_start i j hlt hj)

theorem Lexed.IsOrdered.stop_le_stop {s : Lexed} (h : s.IsOrdered) {i j : Nat} (hij : i ≤ j) (hj : j < s.size) :
    s.stopAt i ≤ s.stopAt j := by
  rcases Nat.eq_or_lt_of_le hij with rfl | hlt
  · exact Nat.le_refl _
  · exact Nat.le_trans (h.stop_le_start i j hlt hj) (start_le_stop hj)

theorem forall₂_getElem? {α β : Type} {R : α → β → Prop} {l : List α} {l' : List β} (h : List.Forall₂ R l l')
    (n : Nat) : Option.Rel R l[n]? l'[n]? := by
  induction h generalizing n with
  | nil => exact .none
  | cons hab _ ih =>
    cases n with
    | zero => exact .some hab
    | succ n => exact ih n

namespace Lexed

variable {s : Lexed} {lbrace rbrace : Nat}

/-- Between two braces, neither a comma nor a semicolon outside inner brackets. -/
structure IsElementToken (s : Lexed) (lbrace rbrace i : Nat) : Prop where
  behind : lbrace < i
  before : i < rbrace
  no_comma : s.isOuter lbrace .comma i = false
  no_semicolon : s.isOuter lbrace .semicolon i = false

theorem mem_elementGroups {i : Nat} :
    i ∈ (s.elementGroups lbrace rbrace).flatten ↔ s.IsElementToken lbrace rbrace i := by
  rw [elementGroups, flatten_groupsOf, List.mem_filter, List.mem_range'_1]
  simp only [Bool.and_eq_true, Bool.not_eq_true']
  constructor
  · rintro ⟨⟨h1, h2⟩, h3, h4⟩
    exact ⟨h1, by omega, h3, h4⟩
  · rintro ⟨h1, h2, h3, h4⟩
    exact ⟨⟨h1, by omega⟩, h3, h4⟩

/-- A group ends before the next one begins. -/
theorem elementGroups_pairwise (s : Lexed) (lbrace rbrace : Nat) :
    (∀ g ∈ s.elementGroups lbrace rbrace, g.Pairwise (· < ·)) ∧
      (s.elementGroups lbrace rbrace).Pairwise fun g g' => ∀ i ∈ g, ∀ j ∈ g', i < j := by
  rw [← List.pairwise_flatten, elementGroups, flatten_groupsOf]
  exact List.Pairwise.filter _ List.pairwise_lt_range'

/-- Each token of an element is in one group only. -/
theorem covers_existsUnique {i : Nat} (hi : s.IsElementToken lbrace rbrace i) :
    ∃! n : Nat, ∃ g, (s.elementGroups lbrace rbrace)[n]? = some g ∧ Covers g i := by
  obtain ⟨g, hg, hig⟩ := List.mem_flatten.mp (mem_elementGroups.mpr hi)
  obtain ⟨n, hn, hget⟩ := List.mem_iff_getElem.mp hg
  refine ⟨n, ⟨g, hget ▸ List.getElem?_eq_getElem hn, ⟨i, hig, Nat.le_refl i⟩, i, hig, Nat.le_refl i⟩, ?_⟩
  rintro m ⟨g', hg', ⟨a, ha, hai⟩, b, hb, hib⟩
  have hapart := List.pairwise_iff_getElem.mp (elementGroups_pairwise s lbrace rbrace).2
  obtain ⟨hm, rfl⟩ := List.getElem?_eq_some_iff.mp hg'
  rcases Nat.lt_trichotomy m n with hlt | heq | hlt
  · have := hapart m n hm hn hlt b hb i (hget ▸ hig)
    omega
  · exact heq
  · have := hapart n m hn hm hlt i (hget ▸ hig) a ha
    omega

end Lexed

/-- The first and the last of numbers in order. -/
theorem le_getLastD {first : Nat} {rest : List Nat} (h : (first :: rest).Pairwise (· < ·)) :
    rest.getLastD first ∈ first :: rest ∧ ∀ j ∈ first :: rest, first ≤ j ∧ j ≤ rest.getLastD first := by
  induction rest generalizing first with
  | nil => simp
  | cons next rest ih =>
    rw [List.pairwise_cons] at h
    obtain ⟨hlast, hbounds⟩ := ih h.2
    rw [List.getLastD_cons]
    refine ⟨List.mem_cons_of_mem first hlast, fun j hj => ?_⟩
    have hfirst := h.1 next List.mem_cons_self
    rcases List.mem_cons.mp hj with rfl | hj
    · have := (hbounds next List.mem_cons_self).2
      omega
    · have := hbounds j hj
      omega

theorem spanAt_eq {s : Lexed} {i : Nat} (hi : i < s.size) : s.spanAt i = ⟨s.startAt i, s.stopAt i⟩ := by
  obtain ⟨t, ht⟩ := Lexed.exists_token hi
  simp [Lexed.spanAt, Lexed.startAt, Lexed.stopAt, ht, Token.span]

/-- An element and the tokens between the braces that it is made of. -/
structure Element.StandsOn (s : Lexed) (lbrace rbrace first : Nat) (rest : List Nat) (e : Element) : Prop where
  reads : ReadsGroup s lbrace first rest e
  sorted : (first :: rest).Pairwise (· < ·)
  inside : ∀ j ∈ first :: rest, s.IsElementToken lbrace rbrace j

theorem exists_group {s : Lexed} (hm : s.IsMatched) {lbrace rbrace : Nat} (hbrace : s.closerOf lbrace = some rbrace)
    {n : Nat} {e : Element} (he : (splitElements s lbrace rbrace).1[n]? = some e) :
    ∃ first rest, (s.elementGroups lbrace rbrace)[n]? = some (first :: rest) ∧
      e.StandsOn s lbrace rbrace first rest := by
  have hrel := forall₂_getElem? (splitElements_isElementOf hm hbrace) n
  rw [he] at hrel
  generalize hg : (s.elementGroups lbrace rbrace)[n]? = o at hrel
  cases hrel with
  | @some g _ hread =>
    have hmem := List.mem_of_getElem? hg
    cases g with
    | nil => cases hread
    | cons first rest =>
      exact ⟨first, rest, rfl, hread, (Lexed.elementGroups_pairwise s lbrace rbrace).1 _ hmem,
        fun j hj => Lexed.mem_elementGroups.mp (List.mem_flatten.mpr ⟨_, hmem, hj⟩)⟩

namespace Element.StandsOn

variable {s : Lexed} {lbrace rbrace first : Nat} {rest : List Nat} {e : Element}
  (h : e.StandsOn s lbrace rbrace first rest)
include h

theorem last_mem : rest.getLastD first ∈ first :: rest := (le_getLastD h.sorted).1

theorem bounds {j : Nat} (hj : j ∈ first :: rest) : first ≤ j ∧ j ≤ rest.getLastD first := (le_getLastD h.sorted).2 j hj

variable (ho : s.IsOrdered) (hsize : rbrace < s.size)
include ho hsize

/-- Neither the first nor the last token of an element is empty. -/
theorem nonempty : s.startAt first < s.stopAt first ∧
    s.startAt (rest.getLastD first) < s.stopAt (rest.getLastD first) := by
  have hnonempty : ∀ j ∈ first :: rest, s.kindAt j ≠ some .semicolon → s.startAt j < s.stopAt j := by
    intro j hj hne
    obtain ⟨t, ht⟩ := Lexed.exists_token (Nat.lt_trans (h.inside j hj).before hsize)
    have hk : s.kindAt j = some t.kind := by simp [Lexed.kindAt, ht]
    exact ho.start_lt_stop j t.kind hk fun heq => hne (heq ▸ hk)
  exact ⟨hnonempty _ List.mem_cons_self h.reads.ends.1, hnonempty _ h.last_mem h.reads.ends.2⟩

/-- Of two elements the one of the earlier tokens ends before the other begins. -/
theorem stop_le_start {first' : Nat} {rest' : List Nat} {e' : Element}
    (h' : e'.StandsOn s lbrace rbrace first' rest') (hlt : rest.getLastD first < first') :
    e.span.stop ≤ e'.span.start := by
  rw [h.reads.span, h'.reads.span]
  exact ho.stop_le_start _ _ hlt (Nat.lt_trans (h'.inside first' List.mem_cons_self).before hsize)

end Element.StandsOn

section

variable {s : Lexed} (hm : s.IsMatched) {lbrace rbrace : Nat} (hbrace : s.closerOf lbrace = some rbrace)
  (ho : s.IsOrdered)
include hm hbrace ho

/-- The elements stand behind one another. -/
theorem elements_pairwise {m n : Nat} {d e : Element} (hd : (splitElements s lbrace rbrace).1[m]? = some d)
    (he : (splitElements s lbrace rbrace).1[n]? = some e) (hmn : m < n) : d.span.stop ≤ e.span.start := by
  obtain ⟨first, rest, hg, hstands⟩ := exists_group hm hbrace hd
  obtain ⟨first', rest', hg', hstands'⟩ := exists_group hm hbrace he
  obtain ⟨hm', hgm⟩ := List.getElem?_eq_some_iff.mp hg
  obtain ⟨hn', hgn⟩ := List.getElem?_eq_some_iff.mp hg'
  have hapart := List.pairwise_iff_getElem.mp (Lexed.elementGroups_pairwise s lbrace rbrace).2 m n hm' hn' hmn
  exact hstands.stop_le_start ho (hm.closer_spec hbrace).2.1 hstands'
    (hapart _ (hgm ▸ hstands.last_mem) _ (hgn ▸ List.mem_cons_self))

/-- Each token of an element stands in the span of one element only. -/
theorem span_existsUnique {i : Nat} (hi : s.IsElementToken lbrace rbrace i) :
    ∃! n : Nat, ∃ e, (splitElements s lbrace rbrace).1[n]? = some e ∧ (s.spanAt i).Within e.span := by
  have hend := (hm.closer_spec hbrace).2.1
  have hisize := Nat.lt_trans hi.before hend
  rw [spanAt_eq hisize]
  obtain ⟨n, ⟨g, hg, ⟨a, ha, hai⟩, b, hb, hib⟩, -⟩ := Lexed.covers_existsUnique hi
  obtain ⟨e, he⟩ : ∃ e, (splitElements s lbrace rbrace).1[n]? = some e :=
    ⟨_, List.getElem?_eq_getElem ((splitElements_isElementOf hm hbrace).length_eq ▸
      (List.getElem?_eq_some_iff.mp hg).1)⟩
  obtain ⟨first, rest, hg', hstands⟩ := exists_group hm hbrace he
  rw [hg] at hg'
  cases hg'
  have hspan := hstands.reads.span
  obtain ⟨hfirst, hlast⟩ := hstands.nonempty ho hend
  have hstart := ho.start_le_start (Nat.le_trans (hstands.bounds ha).1 hai) hisize
  have hstop := ho.stop_le_stop (Nat.le_trans (hstands.bounds ha).1 hai) hisize
  have hlsize := Nat.lt_trans (hstands.inside _ hstands.last_mem).before hend
  have hil : i ≤ rest.getLastD first := Nat.le_trans hib (hstands.bounds hb).2
  have hstart' := ho.start_le_start hil hlsize
  have hstop' := ho.stop_le_stop hil hlsize
  refine ⟨n, ⟨e, he, by rw [hspan]; exact hstart, by rw [hspan]; exact hstop'⟩, ?_⟩
  rintro m ⟨e', he', hin, hin'⟩
  -- The first token of this element, its last one and all other elements are apart, and neither is empty.
  rcases Nat.lt_trichotomy m n with hlt | heq | hlt
  · have hbefore := elements_pairwise hm hbrace ho he' he hlt
    rw [hspan] at hbefore
    simp only at hbefore hin hin'
    omega
  · exact heq
  · have hbehind := elements_pairwise hm hbrace ho he he' hlt
    rw [hspan] at hbehind
    simp only at hbehind hin hin'
    omega

end

/-- The elements between two brackets that belong to each other are, in order, the groups of tokens that outer commas
separate, and every token but these commas and outer semicolons is in one of them, also by its position when the
tokens stand in order. -/
theorem splitElements_groups (text : List Char) (tokens : List Token) {lbrace rbrace : Nat}
    (hbrace : (Lexed.ofTokens text tokens).closerOf lbrace = some rbrace) :
    List.Forall₂ (IsElementOf (Lexed.ofTokens text tokens) lbrace)
        ((Lexed.ofTokens text tokens).elementGroups lbrace rbrace)
        (splitElements (Lexed.ofTokens text tokens) lbrace rbrace).1 ∧
      (∀ i, (Lexed.ofTokens text tokens).IsElementToken lbrace rbrace i →
        ∃! n : Nat, ∃ g, ((Lexed.ofTokens text tokens).elementGroups lbrace rbrace)[n]? = some g ∧ Covers g i) ∧
      ((Lexed.ofTokens text tokens).IsOrdered →
        ∀ i, (Lexed.ofTokens text tokens).IsElementToken lbrace rbrace i →
          ∃! n : Nat, ∃ e, (splitElements (Lexed.ofTokens text tokens) lbrace rbrace).1[n]? = some e ∧
            ((Lexed.ofTokens text tokens).spanAt i).Within e.span) := by
  have hm := Lexed.isMatched_ofTokens text tokens
  exact ⟨splitElements_isElementOf hm hbrace, fun _ hi => Lexed.covers_existsUnique hi,
    fun ho _ hi => span_existsUnique hm hbrace ho hi⟩

/-- Braces around an element with a key and one without. -/
def keyedText : List Char := "{a: (b, c), d}".toList

/-- The colon outside the parentheses ends a key, and the comma inside them separates nothing. -/
theorem splitElements_groups_keyedText :
    (Lexed.ofTokens keyedText (tokenize keyedText).1).closerOf 0 = some 10 ∧
      (Lexed.ofTokens keyedText (tokenize keyedText).1).elementGroups 0 10 = [[1, 2, 3, 4, 5, 6, 7], [9]] ∧
      (Lexed.ofTokens keyedText (tokenize keyedText).1).IsOrdered ∧
      List.Forall₂ (IsElementOf (Lexed.ofTokens keyedText (tokenize keyedText).1) 0)
        [[1, 2, 3, 4, 5, 6, 7], [9]] (splitElements (Lexed.ofTokens keyedText (tokenize keyedText).1) 0 10).1 ∧
      ∃! n : Nat, ∃ e, (splitElements (Lexed.ofTokens keyedText (tokenize keyedText).1) 0 10).1[n]? = some e ∧
        ((Lexed.ofTokens keyedText (tokenize keyedText).1).spanAt 5).Within e.span := by
  have hbrace : (Lexed.ofTokens keyedText (tokenize keyedText).1).closerOf 0 = some 10 := by decide +kernel
  have hgroups : (Lexed.ofTokens keyedText (tokenize keyedText).1).elementGroups 0 10 =
      [[1, 2, 3, 4, 5, 6, 7], [9]] := by decide +kernel
  have hordered : (Lexed.ofTokens keyedText (tokenize keyedText).1).IsOrdered :=
    (Lexed.isRead_ofText keyedText).isOrdered
  have hcomma : (Lexed.ofTokens keyedText (tokenize keyedText).1).IsElementToken 0 10 5 :=
    ⟨by decide, by decide, by decide +kernel, by decide +kernel⟩
  obtain ⟨hread, -, hspans⟩ := splitElements_groups keyedText (tokenize keyedText).1 hbrace
  exact ⟨hbrace, hgroups, hordered, hgroups ▸ hread, hspans hordered 5 hcomma⟩

end LiteralFill
