import LiteralFill.Proofs.Archive
import LiteralFill.Text.Lines
import Mathlib.Data.List.TakeWhile
import Mathlib.Data.Nat.Nth

/-!
Lines and newlines. No character but the newline has the byte of a newline among its own, so the starts of the lines
are zero and the positions just after each newline byte, in ascending order. Therefore the line of a position has the
number of the newlines before the position, a line starts behind the newline of the number before its own, and both
are found from each other: a line starts at a position or before exactly if it is the line of the position or one
before that.
-/

namespace LiteralFill

/-! ## The bytes of newlines -/

/-- The byte at a position of a text ends a line. -/
def IsNewlineAt (text : List Char) (n : Nat) : Prop := (encodeText (String.ofList text))[n]? = some newline

instance (text : List Char) : DecidablePred (IsNewlineAt text) := fun n =>
  inferInstanceAs (Decidable ((encodeText (String.ofList text))[n]? = some newline))

theorem encodeText_append (p q : List Char) :
    encodeText (String.ofList (p ++ q)) = encodeText (String.ofList p) ++ encodeText (String.ofList q) := by
  simp [encodeText_eq]

theorem encodeText_cons (c : Char) (cs : List Char) :
    encodeText (String.ofList (c :: cs)) = String.utf8EncodeChar c ++ encodeText (String.ofList cs) := by
  simp [encodeText_eq]

theorem length_encodeText_ofList (text : List Char) : (encodeText (String.ofList text)).length = byteLength text := by
  induction text with
  | nil => simp [encodeText_eq, byteLength]
  | cons c text ih => rw [encodeText_cons, List.length_append, ih, String.length_utf8EncodeChar, byteLength]

theorem byteLength_newline (text : List Char) : byteLength ('\n' :: text) = byteLength text + 1 := Nat.add_comm _ _

/-- The newlines before a position are those among the bytes up to it. -/
theorem count_isNewlineAt (text : List Char) (n : Nat) :
    Nat.count (IsNewlineAt text) n = ((encodeText (String.ofList text)).take n).count newline := by
  induction n with
  | zero => rfl
  | succ n ih =>
    rw [Nat.count_succ, List.take_add_one, List.count_append, ih]
    congr 1
    by_cases h : IsNewlineAt text n
    · rw [if_pos h, show (encodeText (String.ofList text))[n]? = some newline from h]
      rfl
    · rw [if_neg h, eq_comm, List.count_eq_zero]
      simpa [IsNewlineAt] using h

theorem isNewlineAt_append (p q : List Char) : IsNewlineAt (p ++ '\n' :: q) (byteLength p) := by
  rw [IsNewlineAt, encodeText_append, encodeText_cons, ← length_encodeText_ofList,
    List.getElem?_append_right (Nat.le_refl _), Nat.sub_self]
  rfl

/-! ## The starts of lines -/

/-- The starts up to a position are as many as the newline bytes before it. -/
theorem length_takeWhile_startsAfterNewlines (text : List Char) (base offset : Nat) :
    ((startsAfterNewlines base text).takeWhile (· ≤ offset)).length =
      ((encodeText (String.ofList text)).take (offset - base)).count newline := by
  induction text generalizing base with
  | nil => simp [startsAfterNewlines, encodeText_eq]
  | cons c text ih =>
    rw [encodeText_cons]
    by_cases hc : c = '\n'
    · subst hc
      have hbyte : String.utf8EncodeChar '\n' = [newline] := rfl
      rw [startsAfterNewlines, if_pos rfl, hbyte, List.singleton_append]
      by_cases hle : base + 1 ≤ offset
      · rw [List.takeWhile_cons_of_pos (by simpa using hle), List.length_cons, ih,
          show offset - base = offset - (base + 1) + 1 by omega, List.take_succ_cons, List.count_cons_self]
      · rw [List.takeWhile_cons_of_neg (by simpa using hle), show offset - base = 0 by omega]
        rfl
    · -- A longer character has several bytes, and the position may cut it; none of them is a newline.
      have hother : ((String.utf8EncodeChar c).take (offset - base)).count newline = 0 :=
        List.count_eq_zero.mpr fun h => hc (eq_of_newline_mem (List.mem_of_mem_take h))
      rw [startsAfterNewlines, if_neg hc, ih, List.take_append, List.count_append, hother, Nat.zero_add,
        String.length_utf8EncodeChar, Nat.sub_sub]

theorem startsAfterNewlines_append (offset : Nat) (p q : List Char) :
    startsAfterNewlines offset (p ++ q) =
      startsAfterNewlines offset p ++ startsAfterNewlines (offset + byteLength p) q := by
  induction p generalizing offset with
  | nil => rfl
  | cons c p ih =>
    by_cases hc : c = '\n'
    · simp [startsAfterNewlines, hc, ih, byteLength_newline, Nat.add_assoc, Nat.add_comm 1]
    · simp [startsAfterNewlines, hc, ih, byteLength, Nat.add_assoc]

theorem startsAfterNewlines_bounds {offset : Nat} {text : List Char} :
    ∀ n ∈ startsAfterNewlines offset text, offset < n ∧ n ≤ offset + byteLength text := by
  induction text generalizing offset with
  | nil => simp [startsAfterNewlines]
  | cons c text ih =>
    have hpos := c.utf8Size_pos
    intro n hn
    rw [startsAfterNewlines] at hn
    split at hn
    · next hc =>
      subst hc
      rw [byteLength_newline]
      rcases List.mem_cons.mp hn with rfl | hn
      · omega
      · have := ih n hn
        omega
    · have := ih n hn
      rw [byteLength]
      omega

theorem pairwise_startsAfterNewlines (base : Nat) (text : List Char) :
    (startsAfterNewlines base text).Pairwise (· < ·) := by
  induction text generalizing base with
  | nil => exact List.Pairwise.nil
  | cons c text ih =>
    rw [startsAfterNewlines]
    split
    · exact List.pairwise_cons.mpr ⟨fun n hn => (startsAfterNewlines_bounds n hn).1, ih _⟩
    · exact ih _

/-- Each line starts behind the one before it. -/
theorem pairwise_lineStarts (text : List Char) : (lineStarts text).Pairwise (· < ·) :=
  List.pairwise_cons.mpr ⟨fun n hn => (startsAfterNewlines_bounds n hn).1, pairwise_startsAfterNewlines 0 text⟩

theorem exists_newline_of_mem {base m : Nat} {text : List Char} (h : m ∈ startsAfterNewlines base text) :
    ∃ p q, text = p ++ '\n' :: q ∧ m = base + byteLength p + 1 := by
  induction text generalizing base with
  | nil => simp [startsAfterNewlines] at h
  | cons c text ih =>
    rw [startsAfterNewlines] at h
    split at h
    · next hc =>
      subst hc
      rcases List.mem_cons.mp h with rfl | h
      · exact ⟨[], text, rfl, rfl⟩
      · obtain ⟨p, q, rfl, rfl⟩ := ih h
        exact ⟨'\n' :: p, q, rfl, by rw [byteLength_newline]; omega⟩
    · obtain ⟨p, q, rfl, rfl⟩ := ih h
      exact ⟨c :: p, q, rfl, by rw [byteLength]; omega⟩

theorem lineCount_pos (text : List Char) : 0 < lineCount text := Nat.succ_pos _

theorem lineStart_eq_getElem {text : List Char} {line : Nat} (h : line < (lineStarts text).length) :
    lineStart text line = (lineStarts text)[line] := by
  have hmin : min line ((lineStarts text).length - 1) = line := Nat.min_eq_left (by omega)
  rw [lineStart, hmin, List.getD_eq_getElem _ _ h]

theorem lineStart_mem (text : List Char) (line : Nat) : lineStart text line ∈ lineStarts text := by
  have hmin : min line ((lineStarts text).length - 1) < (lineStarts text).length :=
    Nat.lt_of_le_of_lt (Nat.min_le_right _ _) (Nat.sub_lt (lineCount_pos text) Nat.one_pos)
  rw [lineStart, List.getD_eq_getElem _ _ hmin]
  exact List.getElem_mem hmin

/-- Past the last line the start is that of the last one. -/
theorem lineStart_of_le {text : List Char} {line : Nat} (h : lineCount text ≤ line) :
    lineStart text line = lineStart text (lineCount text - 1) := by
  rw [lineStart, lineStart, ← lineCount, Nat.min_eq_right (by omega), Nat.min_self]

theorem lineStart_lt_lineStart {text : List Char} {a b : Nat} (hab : a < b) (hb : b < lineCount text) :
    lineStart text a < lineStart text b := by
  rw [lineStart_eq_getElem hb, lineStart_eq_getElem (Nat.lt_trans hab hb)]
  exact List.pairwise_iff_getElem.mp (pairwise_lineStarts text) a b _ _ hab

/-! ## The line of a position -/

theorem getElem_le_iff_lt_takeWhile {l : List Nat} (h : l.Pairwise (· < ·)) {i x : Nat} (hi : i < l.length) :
    l[i] ≤ x ↔ i < (l.takeWhile (· ≤ x)).length := by
  induction l generalizing i with
  | nil => simp at hi
  | cons a l ih =>
    obtain ⟨hhead, htail⟩ := List.pairwise_cons.mp h
    by_cases ha : a ≤ x
    · rw [List.takeWhile_cons_of_pos (by simpa using ha), List.length_cons]
      cases i with
      | zero => simpa using ha
      | succ i => rw [List.getElem_cons_succ, ih htail (by simpa using hi), Nat.succ_lt_succ_iff]
    · rw [List.takeWhile_cons_of_neg (by simpa using ha)]
      cases i with
      | zero => simpa using ha
      | succ i =>
        have := hhead _ (List.getElem_mem (by simpa using hi : i < l.length))
        rw [List.getElem_cons_succ]
        simp only [List.length_nil, Nat.not_lt_zero, iff_false]
        omega

/-- The line of a position has the number of the newlines before the position. -/
theorem lineOf_eq_count (text : List Char) (offset : Nat) :
    lineOf text offset = Nat.count (IsNewlineAt text) offset := by
  rw [count_isNewlineAt, lineOf, lineStarts, List.takeWhile_cons_of_pos (by simp), List.length_cons,
    Nat.add_sub_cancel, length_takeWhile_startsAfterNewlines, Nat.sub_zero]

theorem lineOf_lt_lineCount (text : List Char) (offset : Nat) : lineOf text offset < lineCount text := by
  have hle : ((lineStarts text).takeWhile (· ≤ offset)).length ≤ lineCount text :=
    (List.takeWhile_sublist _).length_le
  have hpos := lineCount_pos text
  rw [lineOf]
  omega

/-- The lines that start at a position or before are the one of the position and those before it. -/
theorem lineStart_le_iff {text : List Char} {line offset : Nat} (h : line < lineCount text) :
    lineStart text line ≤ offset ↔ line ≤ lineOf text offset := by
  have hpos : 0 < ((lineStarts text).takeWhile (· ≤ offset)).length := by
    rw [lineStarts, List.takeWhile_cons_of_pos (by simp)]
    exact Nat.succ_pos _
  rw [lineStart_eq_getElem h, getElem_le_iff_lt_takeWhile (pairwise_lineStarts text) h, lineOf]
  omega

theorem lineStart_lineOf_le (text : List Char) (offset : Nat) : lineStart text (lineOf text offset) ≤ offset :=
  (lineStart_le_iff (lineOf_lt_lineCount text offset)).mpr (Nat.le_refl _)

theorem lt_lineStart {text : List Char} {line offset : Nat} (h : lineOf text offset < line)
    (hline : line < lineCount text) : offset < lineStart text line :=
  Nat.lt_of_not_le fun hle => Nat.not_le_of_lt h ((lineStart_le_iff hline).mp hle)

/-- A line is the line of its start. -/
theorem lineOf_lineStart {text : List Char} {line : Nat} (h : line < lineCount text) :
    lineOf text (lineStart text line) = line := by
  refine Nat.le_antisymm ?_ ((lineStart_le_iff h).mp (Nat.le_refl _))
  by_contra hlt
  -- A later line would start behind the position that is its own start.
  have hbehind := lineStart_lt_lineStart (Nat.lt_of_not_le hlt) (lineOf_lt_lineCount text _)
  exact Nat.not_lt_of_le (lineStart_lineOf_le text _) hbehind

/-- A line but the first starts just after the newline of the number before its own. -/
theorem lineStart_succ {text : List Char} {line : Nat} (h : line + 1 < lineCount text) :
    IsNewlineAt text (Nat.nth (IsNewlineAt text) line) ∧
      lineStart text (line + 1) = Nat.nth (IsNewlineAt text) line + 1 := by
  have hmem : lineStart text (line + 1) ∈ startsAfterNewlines 0 text := by
    rw [lineStart_eq_getElem h]
    exact List.getElem_mem _
  obtain ⟨p, q, htext, hstart⟩ := exists_newline_of_mem hmem
  rw [Nat.zero_add] at hstart
  have hnewline : IsNewlineAt text (byteLength p) := htext ▸ isNewlineAt_append p q
  -- The newline itself is the last one before the line, so there are as many before it as its own number.
  have hcount : Nat.count (IsNewlineAt text) (byteLength p) = line := by
    have hline := lineOf_lineStart h
    rw [hstart, lineOf_eq_count, Nat.count_succ, if_pos hnewline] at hline
    omega
  rw [← hcount, Nat.nth_count hnewline, hcount, hstart]
  exact ⟨hnewline, rfl⟩

/-- There is one line more than newlines. -/
theorem lineCount_eq (text : List Char) :
    lineCount text = Nat.count (IsNewlineAt text) (byteLength text) + 1 := by
  have hlast : lineCount text - 1 < lineCount text := Nat.sub_lt (lineCount_pos text) Nat.one_pos
  have hbound : lineStart text (lineCount text - 1) ≤ byteLength text := by
    rcases List.mem_cons.mp (lineStart_mem text (lineCount text - 1)) with h | h
    · omega
    · have := (startsAfterNewlines_bounds _ h).2
      omega
  have hle := (lineStart_le_iff hlast).mp hbound
  have hlt := lineOf_lt_lineCount text (byteLength text)
  rw [← lineOf_eq_count]
  omega

/-- The line of a position and its start depend on what stands before the position. -/
theorem lineOf_append (p q : List Char) : lineOf (p ++ q) (byteLength p) = lineOf p (byteLength p) := by
  rw [lineOf_eq_count, lineOf_eq_count, count_isNewlineAt, count_isNewlineAt, encodeText_append,
    ← length_encodeText_ofList, List.take_left, List.take_length]

theorem lineStart_append {p : List Char} {line : Nat} (h : line < lineCount p) (q : List Char) :
    lineStart (p ++ q) line = lineStart p line := by
  have hstarts : lineStarts (p ++ q) = lineStarts p ++ startsAfterNewlines (0 + byteLength p) q := by
    rw [lineStarts, startsAfterNewlines_append]
    rfl
  have hlt : line < (lineStarts (p ++ q)).length := by
    rw [hstarts, List.length_append]
    exact Nat.lt_add_right _ h
  rw [lineStart_eq_getElem h, lineStart_eq_getElem hlt]
  simp only [hstarts, List.getElem_append_left h]

/-! ## Searching a line -/

/-- What a search for a number in an ascending list answers: an index where it stands, or the one where it has to be
put in. -/
inductive IsSearched (l : List Nat) (x : Nat) : Except Nat Nat → Prop
  | found {i : Nat} (hi : i < l.length) (h : l[i] = x) : IsSearched l x (.ok i)
  | missing {i : Nat} (hi : i ≤ l.length) (hbefore : ∀ j (hj : j < i), l[j] < x)
    (hbehind : ∀ j (hj : j < l.length), i ≤ j → x < l[j]) : IsSearched l x (.error i)

/-- The line that an answer to a search for a position in the starts stands for: the one that starts there, or the one
before the index where the position would be put in. -/
def lineSearched : Except Nat Nat → Nat
  | .ok line => line
  | .error next => next - 1

/-- However the starts are searched for a position, the answer stands for its line. Nothing is put in before the first
start, so there is always a line before. -/
theorem lineOf_of_isSearched {text : List Char} {offset : Nat} {answer : Except Nat Nat}
    (h : IsSearched (lineStarts text) offset answer) :
    answer ≠ .error 0 ∧ lineOf text offset = lineSearched answer := by
  cases h with
  | @found line hline hstart =>
    rw [← lineStart_eq_getElem hline] at hstart
    exact ⟨nofun, hstart ▸ lineOf_lineStart hline⟩
  | @missing next hnext hbefore hbehind =>
    have hline := lineOf_lt_lineCount text offset
    have hlt : lineOf text offset < next := by
      by_contra hge
      have hstart : offset < lineStart text (lineOf text offset) :=
        (hbehind _ hline (Nat.le_of_not_lt hge)).trans_eq (lineStart_eq_getElem hline).symm
      exact Nat.not_lt_of_le (lineStart_lineOf_le text offset) hstart
    have hle : next ≤ lineOf text offset + 1 := by
      by_contra hgt
      have hbelow : lineOf text offset + 1 < lineCount text := Nat.lt_of_lt_of_le (Nat.lt_of_not_le hgt) hnext
      have hstart : lineStart text (lineOf text offset + 1) < offset :=
        (lineStart_eq_getElem hbelow).trans_lt (hbefore _ (Nat.lt_of_not_le hgt))
      exact Nat.lt_asymm hstart (lt_lineStart (Nat.lt_succ_self _) hbelow)
    obtain rfl : next = lineOf text offset + 1 := Nat.le_antisymm hle hlt
    exact ⟨nofun, rfl⟩

/-! ## The indentation of a line -/

/-- The longest beginning of a text that is made of spaces and tabs. -/
structure IsIndentOf (rest indent : List Char) : Prop where
  begins : indent <+: rest
  blank : ∀ c ∈ indent, c = ' ' ∨ c = '\t'
  longest : ∀ other, other <+: rest → (∀ c ∈ other, c = ' ' ∨ c = '\t') → other <+: indent

theorem isIndentOf_takeWhile (rest : List Char) :
    IsIndentOf rest (rest.takeWhile fun c => c == ' ' || c == '\t') where
  begins := List.takeWhile_prefix _
  blank := fun c hc => by simpa using List.mem_takeWhile_imp hc
  longest := by
    rintro other ⟨behind, rfl⟩ hblank
    rw [List.takeWhile_append_of_pos fun c hc => by simpa using hblank c hc]
    exact List.prefix_append _ _

/-- Lines start between characters. -/
theorem exists_rest_of_line (text : List Char) (line : Nat) :
    ∃ before rest, text = before ++ rest ∧ byteLength before = lineStart text line := by
  rcases List.mem_cons.mp (lineStart_mem text line) with h | h
  · exact ⟨[], text, rfl, h.symm⟩
  · obtain ⟨p, q, htext, hstart⟩ := exists_newline_of_mem h
    refine ⟨p ++ ['\n'], q, by simp [htext], ?_⟩
    rw [hstart, byteLength_append, Nat.zero_add]
    rfl

/-- The indentation of a line is what its text begins with. -/
theorem indentAt_spec (text : List Char) (offset : Nat) : ∃ before rest, text = before ++ rest ∧
    byteLength before = lineStart text (lineOf text offset) ∧ IsIndentOf rest (indentAt text offset) := by
  obtain ⟨before, rest, htext, hstart⟩ := exists_rest_of_line text (lineOf text offset)
  refine ⟨before, rest, htext, hstart, ?_⟩
  rw [indentAt, ← hstart]
  nth_rewrite 1 [htext]
  rw [dropBytes_byteLength]
  exact isIndentOf_takeWhile rest

theorem dropBytes_append_of_le {n : Nat} {p : List Char} (h : n ≤ byteLength p) (q : List Char) :
    dropBytes n (p ++ q) = dropBytes n p ++ q := by
  induction p generalizing n with
  | nil =>
    obtain rfl : n = 0 := by simpa [byteLength] using h
    cases q <;> rfl
  | cons c p ih =>
    simp only [byteLength] at h
    by_cases hn : n = 0
    · simp [dropBytes, hn]
    · simp only [List.cons_append, dropBytes, hn, ↓reduceIte]
      exact ih (by omega)

theorem takeWhile_append_of_stop {p : Char → Bool} {d : Char} (hd : p d = false) (a r : List Char) :
    (a ++ d :: r).takeWhile p = a.takeWhile p := by
  induction a with
  | nil => rw [List.nil_append, List.takeWhile_cons_of_neg (by simp [hd]), List.takeWhile_nil]
  | cons b a ih => rw [List.cons_append, List.takeWhile_cons, List.takeWhile_cons, ih]

/-- The indentation of a line is found before the first character that is not part of it. -/
theorem indentAt_append {c c' : Char} (hc : (c == ' ' || c == '\t') = false) (hc' : (c' == ' ' || c' == '\t') = false)
    (p q q' : List Char) : indentAt (p ++ c :: q) (byteLength p) = indentAt (p ++ c' :: q') (byteLength p) := by
  have hline := lineOf_lt_lineCount p (byteLength p)
  have hle := lineStart_lineOf_le p (byteLength p)
  rw [indentAt, indentAt, lineOf_append, lineOf_append, lineStart_append hline, lineStart_append hline,
    dropBytes_append_of_le hle, dropBytes_append_of_le hle, takeWhile_append_of_stop hc,
    takeWhile_append_of_stop hc']

/-! ## All lines -/

/-- Lines are told by newlines alone, for every text and every position. There is one line more than newline bytes. The
line of a position is one of them, whether or not the position lies in the text: its number is that of the newline bytes
before the position, it starts there or before, the next line starts behind, and every search in the starts comes to it.
The first line starts at zero, each other one just after the newline of the number before its own, and a number past the
last line stands for the last one. The indentation at a position is the longest run of spaces and tabs from the start of
its line. -/
theorem lines_countNewlines (text : List Char) :
    lineCount text = Nat.count (IsNewlineAt text) (byteLength text) + 1 ∧
    (∀ offset, lineOf text offset = Nat.count (IsNewlineAt text) offset ∧ lineOf text offset < lineCount text ∧
      lineStart text (lineOf text offset) ≤ offset ∧
      (lineOf text offset + 1 < lineCount text → offset < lineStart text (lineOf text offset + 1)) ∧
      ∀ answer, IsSearched (lineStarts text) offset answer →
        answer ≠ .error 0 ∧ lineOf text offset = lineSearched answer) ∧
    lineStart text 0 = 0 ∧
    (∀ line, line + 1 < lineCount text → IsNewlineAt text (Nat.nth (IsNewlineAt text) line) ∧
      lineStart text (line + 1) = Nat.nth (IsNewlineAt text) line + 1) ∧
    (∀ line, lineCount text ≤ line → lineStart text line = lineStart text (lineCount text - 1)) ∧
    ∀ offset, ∃ before rest, text = before ++ rest ∧ byteLength before = lineStart text (lineOf text offset) ∧
      IsIndentOf rest (indentAt text offset) := by
  refine ⟨lineCount_eq text, fun offset => ?_, lineStart_eq_getElem (lineCount_pos text), fun line => lineStart_succ,
    fun line => lineStart_of_le, indentAt_spec text⟩
  exact ⟨lineOf_eq_count text offset, lineOf_lt_lineCount text offset, lineStart_lineOf_le text offset,
    lt_lineStart (Nat.lt_succ_self _), fun answer => lineOf_of_isSearched⟩

example : let text := "ab\ncd\n\nx".toList
    [0, 2, 3, 6, 7, 9].map (lineOf text) = [0, 0, 1, 2, 3, 3] ∧ [3, 10].map (lineStart text) = [7, 7] := by decide

end LiteralFill
