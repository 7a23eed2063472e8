import LiteralFill.Text.Distance
import Mathlib.Algebra.Order.Floor.Div
import Mathlib.Data.List.Infix

/-!
Suggestions. The distance of two texts that the table ends with is the one of the recursion over both texts, and the
least cost of an alignment of them. The suggestion is the first of the nearest candidates, of those that are near enough
and not the text itself.
-/

namespace LiteralFill

/-! ## The distance -/

/-- The Levenshtein distance: the first character of one text is deleted, that of the other is inserted, or one stands
for the other, which costs nothing if they are equal. -/
def levenshtein : List Char → List Char → Nat
  | [], b => b.length
  | a, [] => a.length
  | c :: a, d :: b =>
    min (min (levenshtein a b + if c = d then 0 else 1) (levenshtein a (d :: b) + 1)) (levenshtein (c :: a) b + 1)

@[simp] theorem levenshtein_nil_left (b : List Char) : levenshtein [] b = b.length := by rw [levenshtein]

@[simp] theorem levenshtein_nil_right (a : List Char) : levenshtein a [] = a.length := by
  cases a <;> simp [levenshtein]

theorem levenshtein_cons_cons (c d : Char) (a b : List Char) :
    levenshtein (c :: a) (d :: b) =
      min (min (levenshtein a b + if c = d then 0 else 1) (levenshtein a (d :: b) + 1))
        (levenshtein (c :: a) b + 1) := by
  rw [levenshtein]

/-- The characters of two texts side by side, and how many of them are deleted, inserted or replaced. -/
inductive EditPath : List Char → List Char → Nat → Prop
  | nil : EditPath [] [] 0
  | keep (c : Char) {a b : List Char} {n : Nat} (h : EditPath a b n) : EditPath (c :: a) (c :: b) n
  | replace (c d : Char) {a b : List Char} {n : Nat} (h : EditPath a b n) : EditPath (c :: a) (d :: b) (n + 1)
  | delete (c : Char) {a b : List Char} {n : Nat} (h : EditPath a b n) : EditPath (c :: a) b (n + 1)
  | insert (d : Char) {a b : List Char} {n : Nat} (h : EditPath a b n) : EditPath a (d :: b) (n + 1)

namespace EditPath

variable {a b a' b' : List Char} {n m : Nat}

theorem deleteAll (a : List Char) : EditPath a [] a.length := by
  induction a with
  | nil => exact nil
  | cons c a ih => exact delete c ih

theorem insertAll (b : List Char) : EditPath [] b b.length := by
  induction b with
  | nil => exact nil
  | cons d b ih => exact insert d ih

/-- The first characters stand for each other. -/
theorem cons (c d : Char) (h : EditPath a b n) : EditPath (c :: a) (d :: b) (n + if c = d then 0 else 1) := by
  split
  · next heq =>
    subst heq
    exact keep c h
  · exact replace c d h

theorem append (h : EditPath a b n) (h' : EditPath a' b' m) : EditPath (a ++ a') (b ++ b') (n + m) := by
  induction h with
  | nil => simpa using h'
  | keep c h ih => exact keep c ih
  | replace c d h ih =>
    rw [Nat.add_right_comm]
    exact replace c d ih
  | delete c h ih =>
    rw [Nat.add_right_comm]
    exact delete c ih
  | insert d h ih =>
    rw [Nat.add_right_comm]
    exact insert d ih

theorem reverse (h : EditPath a b n) : EditPath a.reverse b.reverse n := by
  induction h with
  | nil => exact nil
  | keep c h ih =>
    rw [List.reverse_cons, List.reverse_cons]
    exact ih.append (keep c nil)
  | replace c d h ih =>
    rw [List.reverse_cons, List.reverse_cons]
    exact ih.append (replace c d nil)
  | delete c h ih =>
    simpa using ih.append (delete c nil)
  | insert d h ih =>
    simpa using ih.append (insert d nil)

theorem min (h : EditPath a b n) (h' : EditPath a b m) : EditPath a b (min n m) := by
  rcases Nat.le_total n m with hle | hle
  · rwa [Nat.min_eq_left hle]
  · rwa [Nat.min_eq_right hle]

/-- The distance is the cost of an alignment. -/
theorem exists_levenshtein (a b : List Char) : EditPath a b (levenshtein a b) := by
  induction a, b using levenshtein.induct with
  | case1 b =>
    rw [levenshtein_nil_left]
    exact insertAll b
  | case2 a =>
    rw [levenshtein_nil_right]
    exact deleteAll a
  | case3 c a d b hboth hdelete hinsert =>
    rw [levenshtein_cons_cons]
    exact ((cons c d hboth).min (delete c hdelete)).min (insert d hinsert)

/-- No alignment costs less than the distance. -/
theorem levenshtein_le (h : EditPath a b n) : levenshtein a b ≤ n := by
  induction h with
  | nil => simp
  | keep c h ih =>
    rw [levenshtein_cons_cons, if_pos rfl]
    omega
  | replace c d h ih =>
    rw [levenshtein_cons_cons]
    split <;> omega
  | @delete c a b n h ih =>
    cases b with
    | nil => simpa using ih
    | cons d b =>
      rw [levenshtein_cons_cons]
      omega
  | @insert d a b n h ih =>
    cases a with
    | nil => simpa using ih
    | cons c a =>
      rw [levenshtein_cons_cons]
      omega

end EditPath

/-- The distance is the same from the end as from the beginning. -/
theorem levenshtein_reverse (a b : List Char) : levenshtein a.reverse b.reverse = levenshtein a b := by
  refine Nat.le_antisymm (EditPath.exists_levenshtein a b).reverse.levenshtein_le ?_
  have h := (EditPath.exists_levenshtein a.reverse b.reverse).reverse
  rw [List.reverse_reverse, List.reverse_reverse] at h
  exact h.levenshtein_le

/-- The recursion over the last characters, as the table has it. -/
theorem levenshtein_concat (a b : List Char) (c d : Char) :
    levenshtein (a ++ [c]) (b ++ [d]) =
      min (min (levenshtein a b + if c = d then 0 else 1) (levenshtein a (b ++ [d]) + 1))
        (levenshtein (a ++ [c]) b + 1) := by
  rw [← levenshtein_reverse (a ++ [c]), ← levenshtein_reverse a b, ← levenshtein_reverse a (b ++ [d]),
    ← levenshtein_reverse (a ++ [c]) b]
  simp only [List.reverse_append, List.reverse_singleton, List.singleton_append]
  rw [levenshtein_cons_cons]

/-! ## The table -/

/-- The row of the table for a text: its distances from the beginnings of the target. -/
def distanceRow (a target : List Char) : List Nat := target.inits.map (levenshtein a)

theorem tail_inits_cons (d : Char) (todo : List Char) :
    (d :: todo).inits.tail = [d] :: todo.inits.tail.map (d :: ·) := by
  cases todo <;> simp

/-- One pass over the row: behind the entries for the beginnings up to `done` come those for the longer ones. -/
theorem nextRow_inits (c : Char) (a done todo : List Char) :
    nextRow c (levenshtein a done) (levenshtein (a ++ [c]) done)
      (todo.zip (todo.inits.tail.map fun t => levenshtein a (done ++ t))) =
    todo.inits.tail.map fun t => levenshtein (a ++ [c]) (done ++ t) := by
  induction todo generalizing done with
  | nil => rfl
  | cons d todo ih =>
    have hmore (a : List Char) : (todo.inits.tail.map (d :: ·)).map (fun t => levenshtein a (done ++ t)) =
        todo.inits.tail.map fun t => levenshtein a (done ++ [d] ++ t) := by
      rw [List.map_map]
      exact List.map_congr_left fun t _ => by simp
    rw [tail_inits_cons, List.map_cons, List.map_cons, hmore, hmore, List.zip_cons_cons, nextRow,
      ← levenshtein_concat, ih]

/-- The row after one more character. -/
theorem distanceRow_concat (c : Char) (a target : List Char) :
    (a.length + 1) :: nextRow c ((distanceRow a target).headD 0) (a.length + 1) (target.zip (distanceRow a target).tail) =
      distanceRow (a ++ [c]) target := by
  have hrow (a : List Char) : distanceRow a target = a.length :: target.inits.tail.map (levenshtein a) := by
    cases target <;> simp [distanceRow]
  have h := nextRow_inits c a [] target
  simp only [List.nil_append, levenshtein_nil_right, List.length_append, List.length_singleton] at h
  rw [hrow, hrow, List.headD_cons, List.tail_cons, h, List.length_append, List.length_singleton]

/-- The last row is the one for the whole text. -/
theorem distanceRows_eq (target a cs : List Char) :
    distanceRows target a.length (distanceRow a target) cs = distanceRow (a ++ cs) target := by
  induction cs generalizing a with
  | nil => simp [distanceRows]
  | cons c cs ih =>
    rw [distanceRows, distanceRow_concat, ← List.length_singleton (a := c), ← List.length_append, ih, List.append_assoc,
      List.singleton_append]

theorem distanceRow_nil (target : List Char) : distanceRow [] target = List.range (target.length + 1) := by
  refine List.ext_getElem (by simp [distanceRow]) fun n h _ => ?_
  rw [distanceRow, List.length_map, List.length_inits] at h
  simp [distanceRow, List.getElem_inits]
  omega

theorem getLastD_distanceRow (a target : List Char) : (distanceRow a target).getLastD 0 = levenshtein a target := by
  have hlast : target.inits.getLast? = some target := by
    rw [List.getLast?_eq_getElem?, List.length_inits, Nat.add_sub_cancel, List.getElem?_eq_getElem (by simp),
      List.getElem_inits, List.take_length]
  rw [distanceRow, List.getLastD_eq_getLast?, List.getLast?_map, hlast]
  rfl

/-- The distance of two texts is the one of the recursion. -/
theorem editDistance_eq (a b : String) : editDistance a b = levenshtein a.toList b.toList := by
  unfold editDistance
  dsimp only
  have hrows := distanceRows_eq b.toList [] a.toList
  rw [distanceRow_nil, List.length_nil, List.nil_append] at hrows
  rw [hrows, getLastD_distanceRow]

/-! ## The suggestion -/

/-- A candidate that may be suggested: it is not the text itself, and it is no farther than half of its length, rounded
up, or one edit, and no farther than three edits in any case. -/
def MaySuggest (key candidate : String) : Prop :=
  1 ≤ levenshtein key.toList candidate.toList ∧
    levenshtein key.toList candidate.toList ≤ min 3 (max 1 (key.length ⌈/⌉ 2))

/-- The first candidate of least distance among those that may be suggested. -/
def IsFirstNearest (key : String) (candidates : List String) (candidate : String) : Prop :=
  MaySuggest key candidate ∧ ∃ before after, candidates = before ++ candidate :: after ∧
    (∀ other ∈ before, MaySuggest key other →
      levenshtein key.toList candidate.toList < levenshtein key.toList other.toList) ∧
    ∀ other ∈ after, MaySuggest key other →
      levenshtein key.toList candidate.toList ≤ levenshtein key.toList other.toList

theorem suggestionBudget_eq (key : String) : suggestionBudget key = min 3 (max 1 (key.length ⌈/⌉ 2)) := by
  rw [suggestionBudget, Nat.ceilDiv_eq_add_pred_div]
  rfl

variable {key : String}

theorem inBudget_iff (candidate : String) :
    (1 ≤ editDistance key candidate && editDistance key candidate ≤ suggestionBudget key) = true ↔
      MaySuggest key candidate := by
  rw [MaySuggest, ← editDistance_eq, ← suggestionBudget_eq]
  simp

namespace IsFirstNearest

variable {candidates : List String} {candidate other : String}

theorem le (h : IsFirstNearest key candidates candidate) (hother : other ∈ candidates) (hmay : MaySuggest key other) :
    levenshtein key.toList candidate.toList ≤ levenshtein key.toList other.toList := by
  obtain ⟨-, before, after, rfl, hbefore, hafter⟩ := h
  rcases List.mem_append.mp hother with hother | hother
  · exact Nat.le_of_lt (hbefore other hother hmay)
  · rcases List.mem_cons.mp hother with rfl | hother
    · exact Nat.le_refl _
    · exact hafter other hother hmay

theorem mem (h : IsFirstNearest key candidates candidate) : candidate ∈ candidates := by
  obtain ⟨-, before, after, rfl, -⟩ := h
  simp

theorem first (hmay : MaySuggest key candidate) (h : ∀ other ∈ candidates, MaySuggest key other →
    levenshtein key.toList candidate.toList ≤ levenshtein key.toList other.toList) :
    IsFirstNearest key (candidate :: candidates) candidate :=
  ⟨hmay, [], candidates, rfl, nofun, h⟩

theorem cons (h : IsFirstNearest key candidates candidate) (hother : MaySuggest key other →
    levenshtein key.toList candidate.toList < levenshtein key.toList other.toList) :
    IsFirstNearest key (other :: candidates) candidate := by
  obtain ⟨hmay, before, after, rfl, hbefore, hafter⟩ := h
  exact ⟨hmay, other :: before, after, rfl, List.forall_mem_cons.mpr ⟨hother, hbefore⟩, hafter⟩

/-- Only one candidate is the first of the nearest: of two, neither stands before the other. -/
theorem unique (h : IsFirstNearest key candidates candidate) (h' : IsFirstNearest key candidates other) :
    candidate = other := by
  have hle := h.le h'.mem h'.1
  have hge := h'.le h.mem h.1
  obtain ⟨hmay, before, after, rfl, hbefore, -⟩ := h
  obtain ⟨hmay', before', after', hsplit, hbefore', -⟩ := h'
  rcases List.append_eq_append_iff.mp hsplit with ⟨mid, rfl, hmid⟩ | ⟨mid, rfl, hmid⟩
  · cases mid with
    | nil => exact (List.cons.inj hmid).1
    | cons e mid =>
      have hin : candidate ∈ before ++ e :: mid := by simp [(List.cons.inj hmid).1]
      have hlt := hbefore' candidate hin hmay
      omega
  · cases mid with
    | nil => exact (List.cons.inj hmid).1.symm
    | cons e mid =>
      have hin : other ∈ before' ++ e :: mid := by simp [(List.cons.inj hmid).1]
      have hlt := hbefore other hin hmay'
      omega

end IsFirstNearest

theorem nearest_eq_none {candidates : List String} : nearest key (suggestionBudget key) candidates = none ↔
    ∀ candidate ∈ candidates, ¬ MaySuggest key candidate := by
  induction candidates with
  | nil => simp [nearest]
  | cons candidate rest ih =>
    rw [nearest, List.forall_mem_cons, ← inBudget_iff, ← ih]
    split
    · next hbudget =>
      rw [hbudget]
      split
      · split <;> simp
      · simp
    · next hbudget => simp [hbudget]

theorem nearest_eq_some {candidates : List String} {candidate : String} {n : Nat}
    (h : nearest key (suggestionBudget key) candidates = some (candidate, n)) :
    n = editDistance key candidate ∧ IsFirstNearest key candidates candidate := by
  induction candidates generalizing candidate n with
  | nil => cases h
  | cons first rest ih =>
    rw [nearest] at h
    split at h
    · next hbudget =>
      have hmay := (inBudget_iff first).mp hbudget
      split at h
      · next later d hlater =>
        obtain ⟨rfl, hfirst⟩ := ih hlater
        rw [editDistance_eq, editDistance_eq] at h
        split at h
        · next hlt =>
          obtain ⟨rfl, rfl⟩ := Prod.mk.inj (Option.some.inj h)
          exact ⟨(editDistance_eq _ _).symm, hfirst.cons fun _ => hlt⟩
        · next hle =>
          obtain ⟨rfl, rfl⟩ := Prod.mk.inj (Option.some.inj h)
          refine ⟨(editDistance_eq _ _).symm, .first hmay fun other hother hnear => ?_⟩
          exact Nat.le_trans (Nat.le_of_not_lt hle) (hfirst.le hother hnear)
      · next hnone =>
        obtain ⟨rfl, rfl⟩ := Prod.mk.inj (Option.some.inj h)
        refine ⟨rfl, .first hmay fun other hother hnear => ?_⟩
        exact absurd hnear (nearest_eq_none.mp hnone other hother)
    · next hbudget =>
      obtain ⟨hn, hfirst⟩ := ih h
      exact ⟨hn, hfirst.cons fun hmay => absurd ((inBudget_iff first).mpr hmay) hbudget⟩

/-- Nothing is suggested exactly if no candidate may be, and what is suggested is the first of the nearest candidates
that may be. How far they are is what the recursion over both texts gives. -/
theorem suggestSimilar_isFirstNearest (key : String) (candidates : List String) :
    (∀ a b : String, editDistance a b = levenshtein a.toList b.toList) ∧
      (suggestSimilar key candidates = none ↔ ∀ candidate ∈ candidates, ¬ MaySuggest key candidate) ∧
      ∀ candidate, suggestSimilar key candidates = some candidate ↔ IsFirstNearest key candidates candidate := by
  have hnone : suggestSimilar key candidates = none ↔ ∀ candidate ∈ candidates, ¬ MaySuggest key candidate := by
    rw [suggestSimilar, Option.map_eq_none_iff, nearest_eq_none]
  have hsome : ∀ {candidate}, suggestSimilar key candidates = some candidate →
      IsFirstNearest key candidates candidate := by
    intro candidate h
    obtain ⟨⟨_, n⟩, hnearest, rfl⟩ := Option.map_eq_some_iff.mp h
    exact (nearest_eq_some hnearest).2
  refine ⟨editDistance_eq, hnone, fun candidate => ⟨hsome, fun h => ?_⟩⟩
  cases hother : suggestSimilar key candidates with
  | none => exact absurd h.1 (hnone.mp hother candidate h.mem)
  | some other => rw [(hsome hother).unique h]

/-- Letters count as one each, the text itself is passed over, and of two equally near candidates the first is taken. -/
example : suggestSimilar "Größe" ["Größe", "Grosse", "Grösse", "Grose"] = some "Grösse" := by decide +kernel

end LiteralFill
