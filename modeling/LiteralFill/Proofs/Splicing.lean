import LiteralFill.Proofs.Filled.Value
import LiteralFill.Text.Edit
import Mathlib.Data.List.Pairwise

/-!
Edits as simultaneous replacements. The edits are applied one after another, each to a text that others have changed
already; but as the last position comes first, what is before an edit is still what it was, and its span means what it
meant. So the result is the original text with all spans replaced at once, in whatever order the edits are given.
-/

namespace LiteralFill

/-- The text from a position on with the spans of edits replaced: segments that are left as they are, with the texts of
the edits between them. The edits are in order of their positions. -/
def spliced (text : List Char) (start : Nat) : List TextEdit → List Char
  | [] => dropBytes start text
  | e :: rest => slice text ⟨start, e.span.start⟩ ++ e.text.toList ++ spliced text e.span.stop rest

namespace TextEdit

/-- The span ends where another one starts, or before. -/
def IsBefore (a b : TextEdit) : Prop := a.span.stop ≤ b.span.start

/-- The spans of two edits do not overlap. -/
def IsApart (a b : TextEdit) : Prop := a.IsBefore b ∨ b.IsBefore a

/-- The span of an edit lies between characters of a text and is not empty. -/
structure FitsIn (text : List Char) (e : TextEdit) : Prop where
  start : IsBoundary text e.span.start
  stop : IsBoundary text e.span.stop
  nonempty : e.span.start < e.span.stop

end TextEdit

open TextEdit

/-! ## The order in which edits are applied -/

section

variable {edits sorted : List TextEdit} (hne : ∀ e ∈ edits, e.span.start < e.span.stop)
include hne

/-- Edits that do not overlap are sorted so that the last one comes first. -/
theorem isBefore_reverse_mergeSort (hapart : edits.Pairwise IsApart) :
    (edits.mergeSort fun a b => b.span.start ≤ a.span.start).reverse.Pairwise IsBefore := by
  have hperm := edits.mergeSort_perm fun a b => b.span.start ≤ a.span.start
  have hsorted : (edits.mergeSort fun a b => b.span.start ≤ a.span.start).Pairwise
      fun a b => decide (b.span.start ≤ a.span.start) = true := by
    refine List.pairwise_mergeSort ?_ ?_ edits
    · simp only [decide_eq_true_eq]
      omega
    · simp only [Bool.or_eq_true, decide_eq_true_eq]
      omega
  rw [List.pairwise_reverse]
  refine (hsorted.and (hperm.symm.pairwise hapart Or.symm)).imp_of_mem ?_
  rintro a b ha hb ⟨hle, hbefore | hbefore⟩
  · have hstop := hne a (hperm.mem_iff.mp ha)
    have hle := of_decide_eq_true hle
    unfold IsBefore at hbefore
    omega
  · exact hbefore

theorem exists_inOrder (hapart : edits.Pairwise IsApart) :
    ∃ sorted : List TextEdit, sorted.Perm edits ∧ sorted.Pairwise IsBefore :=
  ⟨_, (List.reverse_perm _).trans (edits.mergeSort_perm _), isBefore_reverse_mergeSort hne hapart⟩

/-- Edits are applied to any text in one order, the last one first, whatever their order in the list. -/
theorem applyEdits_eq_foldr (hperm : sorted.Perm edits) (hsorted : sorted.Pairwise IsBefore) (text : List Char) :
    applyEdits text edits = sorted.foldr (fun e text => replaceSpan text e) text := by
  have hapart : edits.Pairwise IsApart := hperm.pairwise (hsorted.imp Or.inl) Or.symm
  have hreverse : (edits.mergeSort fun a b => b.span.start ≤ a.span.start).reverse = sorted := by
    refine List.Perm.eq_of_pairwise ?_ (isBefore_reverse_mergeSort hne hapart) hsorted ?_
    · intro a b ha hb hab hba
      have hstopa := hne a (by simpa using ha)
      have hstopb := hne b (hperm.mem_iff.mp hb)
      unfold IsBefore at hab hba
      omega
    · exact (List.reverse_perm _).trans ((edits.mergeSort_perm _).trans hperm.symm)
  rw [applyEdits, ← hreverse, List.foldr_reverse]

/-- Edits at later positions may be applied first, on their own. -/
theorem applyEdits_applyEdits {early late : List TextEdit} (hapart : edits.Pairwise IsApart)
    (hsplit : (early ++ late).Perm edits) (hbefore : ∀ a ∈ early, ∀ b ∈ late, a.IsBefore b) (text : List Char) :
    applyEdits (applyEdits text late) early = applyEdits text edits := by
  have hparts : ∀ e ∈ early ++ late, e.span.start < e.span.stop := fun e he => hne e (hsplit.mem_iff.mp he)
  obtain ⟨hneEarly, hneLate⟩ := List.forall_mem_append.mp hparts
  obtain ⟨hearly, hlate, -⟩ := List.pairwise_append.mp (hsplit.symm.pairwise hapart Or.symm)
  obtain ⟨early', hearlyPerm, hearlySorted⟩ := exists_inOrder hneEarly hearly
  obtain ⟨late', hlatePerm, hlateSorted⟩ := exists_inOrder hneLate hlate
  have hsorted : (early' ++ late').Pairwise IsBefore :=
    List.pairwise_append.mpr ⟨hearlySorted, hlateSorted, fun a ha b hb =>
      hbefore a (hearlyPerm.mem_iff.mp ha) b (hlatePerm.mem_iff.mp hb)⟩
  rw [applyEdits_eq_foldr hneLate hlatePerm hlateSorted, applyEdits_eq_foldr hneEarly hearlyPerm hearlySorted,
    applyEdits_eq_foldr hne ((hearlyPerm.append hlatePerm).trans hsplit) hsorted, List.foldr_append]

end

/-! ## What the edits leave untouched -/

/-- While edits behind a position are applied, the text before it stays as it is. -/
theorem foldr_replaceSpan {text : List Char} {edits : List TextEdit} (hfits : ∀ e ∈ edits, e.FitsIn text)
    (hsorted : edits.Pairwise IsBefore) {start : Nat} (hstart : IsBoundary text start)
    (hle : ∀ e ∈ edits, start ≤ e.span.start) :
    edits.foldr (fun e text => replaceSpan text e) text = takeBytes start text ++ spliced text start edits := by
  induction edits generalizing start with
  | nil => exact (takeBytes_append_dropBytes start text).symm
  | cons e rest ih =>
    obtain ⟨hbefore, hrest⟩ := List.pairwise_cons.mp hsorted
    have he := hfits e List.mem_cons_self
    have ih := ih (fun e he => hfits e (List.mem_cons_of_mem _ he)) hrest he.stop hbefore
    obtain ⟨x, g, u, y, htext, hx, hg, hu⟩ :=
      exists_pieces hstart he.start he.stop (hle e List.mem_cons_self) he.nonempty.le
    have htake : ∀ {p q : List Char}, text = p ++ q → takeBytes (byteLength p) text = p := by
      rintro p q rfl
      exact takeBytes_byteLength p q
    have hbegin : takeBytes start text = x := hx ▸ htake htext
    have hkept : takeBytes e.span.stop text = x ++ g ++ u := by
      rw [hu, htake (q := y) (by simp [htext]), List.append_assoc]
    have hgap : slice text ⟨start, e.span.start⟩ = g := slice_part htext hx (by rw [hg, byteLength_append])
    rw [List.foldr_cons, ih, replaceSpan, hkept, spliced, hbegin, hgap]
    rw [List.append_assoc (x ++ g), hg, takeBytes_byteLength, ← List.append_assoc (x ++ g) u, hu,
      ← List.append_assoc x, dropBytes_byteLength]
    simp only [List.append_assoc]

/-- Edits whose spans lie between characters, are not empty and do not overlap are applied at once: the segments of the
text that they leave untouched stand in the result with the texts of the edits between them, in order of position. It
does not matter in which order the edits are given, nor whether those at later positions are applied on their own
first. -/
theorem applyEdits_simultaneous {text : List Char} {edits : List TextEdit} (hfits : ∀ e ∈ edits, e.FitsIn text)
    (hapart : edits.Pairwise IsApart) :
    (∃ sorted : List TextEdit, sorted.Perm edits ∧ sorted.Pairwise IsBefore ∧
      applyEdits text edits = spliced text 0 sorted) ∧
    (∀ others : List TextEdit, others.Perm edits → applyEdits text others = applyEdits text edits) ∧
    ∀ early late : List TextEdit, (early ++ late).Perm edits → (∀ a ∈ early, ∀ b ∈ late, a.IsBefore b) →
      applyEdits (applyEdits text late) early = applyEdits text edits := by
  have hne : ∀ e ∈ edits, e.span.start < e.span.stop := fun e he => (hfits e he).nonempty
  obtain ⟨sorted, hperm, hsorted⟩ := exists_inOrder hne hapart
  have happly := applyEdits_eq_foldr hne hperm hsorted text
  refine ⟨⟨sorted, hperm, hsorted, ?_⟩, ?_, ?_⟩
  · have hzero : IsBoundary text 0 := ⟨[], text, rfl, rfl⟩
    rw [happly, foldr_replaceSpan (fun e he => hfits e (hperm.mem_iff.mp he)) hsorted hzero fun e _ => Nat.zero_le _,
      takeBytes_zero, List.nil_append]
  · intro others hothers
    have hne : ∀ e ∈ others, e.span.start < e.span.stop := fun e he => hne e (hothers.mem_iff.mp he)
    rw [happly, applyEdits_eq_foldr hne (hperm.trans hothers.symm) hsorted]
  · exact fun early late hsplit hbefore => applyEdits_applyEdits hne hapart hsplit hbefore text

/-- A text with a letter of two bytes. -/
def accentedText : List Char := ['a', 'ñ', 'b', 'c']

/-- Two edits of it, the later one first. The spans touch each other. -/
def touchingEdits : List TextEdit := [⟨⟨3, 4⟩, "XYZ"⟩, ⟨⟨1, 3⟩, ""⟩]

theorem applyEdits_touching :
    (∀ e ∈ touchingEdits, e.FitsIn accentedText) ∧ touchingEdits.Pairwise IsApart ∧
      applyEdits accentedText touchingEdits.reverse = ['a', 'X', 'Y', 'Z', 'c'] := by
  have hfits : ∀ e ∈ touchingEdits, e.FitsIn accentedText := by
    simp only [touchingEdits, List.forall_mem_cons, List.not_mem_nil, false_implies, implies_true, and_true]
    exact ⟨⟨⟨['a', 'ñ'], ['b', 'c'], rfl, rfl⟩, ⟨['a', 'ñ', 'b'], ['c'], rfl, rfl⟩, by decide⟩,
      ⟨['a'], ['ñ', 'b', 'c'], rfl, rfl⟩, ⟨['a', 'ñ'], ['b', 'c'], rfl, rfl⟩, by decide⟩
  have hapart : touchingEdits.Pairwise IsApart := by
    simp [touchingEdits, IsApart, IsBefore]
  have hsorted : touchingEdits.reverse.Pairwise IsBefore := by
    simp [touchingEdits, IsBefore]
  refine ⟨hfits, hapart, ?_⟩
  rw [(applyEdits_simultaneous hfits hapart).2.1 _ touchingEdits.reverse_perm,
    applyEdits_eq_foldr (fun e he => (hfits e he).nonempty) touchingEdits.reverse_perm hsorted]
  decide

end LiteralFill
