import LiteralFill.Proofs.Filled.Rows

/-!
Runs of neighbours that stand in one column. A run is said by what belongs to it and what can only be its first
element; it is maximal when neither neighbour can be added to it. The columns that `runColumns` gives are those of
the maximal runs.
-/

namespace LiteralFill

variable {α β : Type}

/-- All elements belong, and none but the first leads a run. -/
structure IsRun (belongs leads : α → Prop) (run : List α) : Prop where
  belongs : ∀ a ∈ run, belongs a
  follows : ∀ a ∈ run.tail, ¬ leads a

/-- A run between other elements to which neither neighbour can be added. -/
structure IsMaximalRun (belongs leads : α → Prop) (above run below : List α) : Prop where
  isRun : IsRun belongs leads run
  nonempty : run ≠ []
  above : ∀ a ∈ above.getLast?, ¬ IsRun belongs leads (a :: run)
  below : ∀ b ∈ below.head?, ¬ IsRun belongs leads (run ++ [b])

/-- In each maximal run all columns are the same one, which is `past` columns behind the widest element. -/
def SharesColumns (belongs leads : α → Prop) (width column : α → Nat) (past : Nat) (xs : List α) : Prop :=
  ∀ above run below, xs = above ++ run ++ below → IsMaximalRun belongs leads above run below →
    ∃ widest ∈ run, (∀ a ∈ run, width a ≤ width widest) ∧ ∀ a ∈ run, column a = width widest + past

/-- Columns and widths that are counted from another place, and what belongs said in another way. -/
theorem SharesColumns.shift {belongs belongs' leads : α → Prop} {width width' column column' : α → Nat} {past k : Nat}
    {xs : List α} (h : SharesColumns belongs leads width column 0 xs) (hbelongs : ∀ a, belongs' a ↔ belongs a)
    (hwidth : ∀ a, belongs a → width' a + past = width a + k)
    (hcolumn : ∀ a, belongs a → width a ≤ column a → column' a = column a + k) :
    SharesColumns belongs' leads width' column' past xs := by
  obtain rfl : belongs' = belongs := funext fun a => propext (hbelongs a)
  intro above run below hxs hrun
  obtain ⟨widest, hmem, hle, heq⟩ := h above run below hxs hrun
  have hwidest := hwidth widest (hrun.isRun.belongs widest hmem)
  refine ⟨widest, hmem, fun a ha => ?_, fun a ha => ?_⟩
  · have ha' := hwidth a (hrun.isRun.belongs a ha)
    have := hle a ha
    omega
  · rw [hcolumn a (hrun.isRun.belongs a ha) (by rw [heq a ha]; exact hle a ha), heq a ha, hwidest, Nat.add_zero]

/-! ## The greatest of some numbers -/

theorem le_foldl_max (ns : List Nat) (m : Nat) : m ≤ ns.foldl max m ∧ ∀ n ∈ ns, n ≤ ns.foldl max m := by
  induction ns generalizing m with
  | nil => simp
  | cons n ns ih =>
    obtain ⟨hm, hns⟩ := ih (max m n)
    rw [List.foldl_cons]
    refine ⟨by omega, List.forall_mem_cons.mpr ⟨by omega, hns⟩⟩

theorem foldl_max_mem (ns : List Nat) (m : Nat) : ns.foldl max m ∈ m :: ns := by
  induction ns generalizing m with
  | nil => simp
  | cons n ns ih =>
    rw [List.foldl_cons]
    rcases List.mem_cons.mp (ih (max m n)) with h | h
    · rw [h]
      rcases Nat.le_total m n with hle | hle
      · simp [Nat.max_eq_right hle]
      · simp [Nat.max_eq_left hle]
    · simp [h]

theorem le_greatest {ns : List Nat} {n : Nat} (h : n ∈ ns) : n ≤ greatest ns :=
  (le_foldl_max ns 0).2 n h

theorem greatest_mem {ns : List Nat} (h : ns ≠ []) : greatest ns ∈ ns := by
  rcases List.mem_cons.mp (foldl_max_mem ns 0) with hzero | hmem
  · -- all of them are zero, and there is one
    obtain ⟨n, hn⟩ := List.exists_mem_of_ne_nil ns h
    have hle : n ≤ greatest ns := le_greatest hn
    rw [greatest, hzero] at hle ⊢
    rwa [← Nat.le_zero.mp hle]
  · exact hmem

/-! ## Runs of a mapped list -/

section Map

variable {belongs leads : β → Prop} {width column : β → Nat} {past : Nat} {f : α → β}

theorem isRun_map {run : List α} :
    IsRun belongs leads (run.map f) ↔ IsRun (fun a => belongs (f a)) (fun a => leads (f a)) run := by
  constructor
  · rintro ⟨hbelongs, hfollows⟩
    rw [← List.map_tail] at hfollows
    exact ⟨fun a ha => hbelongs (f a) (List.mem_map_of_mem ha), fun a ha => hfollows (f a) (List.mem_map_of_mem ha)⟩
  · rintro ⟨hbelongs, hfollows⟩
    refine ⟨List.forall_mem_map.mpr hbelongs, ?_⟩
    rw [← List.map_tail]
    exact List.forall_mem_map.mpr hfollows

theorem isMaximalRun_map {above run below : List α} :
    IsMaximalRun belongs leads (above.map f) (run.map f) (below.map f) ↔
      IsMaximalRun (fun a => belongs (f a)) (fun a => leads (f a)) above run below := by
  have habove : ∀ a, IsRun belongs leads (f a :: run.map f) ↔
      IsRun (fun a => belongs (f a)) (fun a => leads (f a)) (a :: run) := fun a => by
    rw [← List.map_cons, isRun_map]
  have hbelow : ∀ b, IsRun belongs leads (run.map f ++ [f b]) ↔
      IsRun (fun a => belongs (f a)) (fun a => leads (f a)) (run ++ [b]) := fun b => by
    rw [← List.map_singleton, ← List.map_append, isRun_map]
  constructor
  · rintro ⟨hrun, hnonempty, ha, hb⟩
    refine ⟨isRun_map.mp hrun, by simpa using hnonempty, fun a h => ?_, fun b h => ?_⟩
    · exact fun hcons => ha (f a) (by simpa using ⟨a, h, rfl⟩) ((habove a).mpr hcons)
    · exact fun hsnoc => hb (f b) (by simpa using ⟨b, h, rfl⟩) ((hbelow b).mpr hsnoc)
  · rintro ⟨hrun, hnonempty, ha, hb⟩
    refine ⟨isRun_map.mpr hrun, by simpa using hnonempty, fun a' h => ?_, fun b' h => ?_⟩
    · obtain ⟨a, hmem, rfl⟩ : ∃ a ∈ above.getLast?, f a = a' := by simpa using h
      exact fun hcons => ha a hmem ((habove a).mp hcons)
    · obtain ⟨b, hmem, rfl⟩ : ∃ b ∈ below.head?, f b = b' := by simpa using h
      exact fun hsnoc => hb b hmem ((hbelow b).mp hsnoc)

theorem sharesColumns_map {xs : List α} : SharesColumns belongs leads width column past (xs.map f) ↔
    SharesColumns (fun a => belongs (f a)) (fun a => leads (f a)) (fun a => width (f a)) (fun a => column (f a))
      past xs := by
  constructor
  · rintro h above run below rfl hrun
    obtain ⟨_, hwidest, hle, hcolumn⟩ := h _ _ _ (by simp) (isMaximalRun_map.mpr hrun)
    obtain ⟨widest, hmem, rfl⟩ := List.mem_map.mp hwidest
    exact ⟨widest, hmem, List.forall_mem_map.mp hle, List.forall_mem_map.mp hcolumn⟩
  · intro h above' run' below' hxs hrun
    obtain ⟨front, below, rfl, hfront, rfl⟩ := List.map_eq_append_iff.mp hxs
    obtain ⟨above, run, rfl, rfl, rfl⟩ := List.map_eq_append_iff.mp hfront
    obtain ⟨widest, hmem, hle, hcolumn⟩ := h _ _ _ rfl (isMaximalRun_map.mp hrun)
    exact ⟨f widest, List.mem_map_of_mem hmem, List.forall_mem_map.mpr hle, List.forall_mem_map.mpr hcolumn⟩

end Map

/-! ## The columns of runs -/

section Columns

variable {belongs leads : α → Prop} {joins : α → α → Bool} {measure : α → Nat}
  (hjoins : ∀ a b, joins a b = true ↔ belongs a ∧ belongs b ∧ ¬ leads b)

include hjoins

theorem IsRun.isChain {run : List α} (h : IsRun belongs leads run) : run.IsChain fun a b => joins a b := by
  induction run with
  | nil => exact .nil
  | cons a run ih =>
    cases run with
    | nil => exact .singleton a
    | cons b run =>
      have hjoin : joins a b = true :=
        (hjoins a b).mpr ⟨h.belongs a (by simp), h.belongs b (by simp), h.follows b (by simp)⟩
      have hrun : IsRun belongs leads (b :: run) :=
        ⟨fun c hc => h.belongs c (List.mem_cons_of_mem a hc), fun c hc => h.follows c (List.mem_cons_of_mem b hc)⟩
      exact .cons_cons hjoin (ih hrun)

/-- What stands above a maximal run does not join it. -/
theorem IsMaximalRun.joins_above {above run below : List α} (h : IsMaximalRun belongs leads above run below) :
    ∀ a ∈ above.getLast?, ∀ b ∈ run.head?, joins a b = false := by
  intro a ha b hb
  rw [← Bool.not_eq_true, hjoins]
  rintro ⟨hbelongs, -, hleads⟩
  obtain ⟨run, rfl⟩ : ∃ rest, run = b :: rest := ⟨run.tail, List.eq_cons_of_mem_head? hb⟩
  exact h.above a ha ⟨List.forall_mem_cons.mpr ⟨hbelongs, h.isRun.belongs⟩,
    List.forall_mem_cons.mpr ⟨hleads, h.isRun.follows⟩⟩

/-- What stands below a maximal run does not join it. -/
theorem IsMaximalRun.joins_below {above run below : List α} (h : IsMaximalRun belongs leads above run below) :
    ∀ a ∈ run.getLast?, ∀ b ∈ below.head?, joins a b = false := by
  intro a ha b hb
  rw [← Bool.not_eq_true, hjoins]
  rintro ⟨-, hbelongs, hleads⟩
  refine h.below b hb ⟨List.forall_mem_append.mpr ⟨h.isRun.belongs, by simpa using hbelongs⟩, ?_⟩
  rw [List.tail_append_of_ne_nil h.nonempty]
  exact List.forall_mem_append.mpr ⟨h.isRun.follows, by simpa using hleads⟩

omit hjoins in
theorem runColumns_append {xs ys : List α} (h : ∀ x ∈ xs.getLast?, ∀ y ∈ ys.head?, joins x y = false) :
    runColumns joins measure (xs ++ ys) = runColumns joins measure xs ++ runColumns joins measure ys := by
  rw [runColumns, List.splitBy_append h, List.flatMap_append]
  rfl

omit hjoins in
/-- Some elements that do not join what stands around them have the columns that they have alone. -/
theorem runColumns_cut {xs : List α} {above run below : List (α × Nat)}
    (hpairs : xs.zip (runColumns joins measure xs) = above ++ run ++ below) (hnonempty : run ≠ [])
    (habove : ∀ a ∈ (above.map Prod.fst).getLast?, ∀ b ∈ (run.map Prod.fst).head?, joins a b = false)
    (hbelow : ∀ a ∈ (run.map Prod.fst).getLast?, ∀ b ∈ (below.map Prod.fst).head?, joins a b = false) :
    run.map Prod.snd = runColumns joins measure (run.map Prod.fst) := by
  have hlength : (runColumns joins measure xs).length = xs.length := length_runColumns joins measure xs
  have hxs : above.map Prod.fst ++ run.map Prod.fst ++ below.map Prod.fst = xs := by
    rw [← List.map_append, ← List.map_append, ← hpairs, List.map_fst_zip hlength.ge]
  have hcolumns : above.map Prod.snd ++ run.map Prod.snd ++ below.map Prod.snd = runColumns joins measure xs := by
    rw [← List.map_append, ← List.map_append, ← hpairs, List.map_snd_zip hlength.le]
  rw [← List.getLast?_append_of_ne_nil (above.map Prod.fst) (by simpa using hnonempty)] at hbelow
  rw [← hxs, runColumns_append hbelow, runColumns_append habove, List.append_assoc, List.append_assoc] at hcolumns
  obtain ⟨-, hrest⟩ := List.append_inj hcolumns (by simp [length_runColumns])
  exact (List.append_inj hrest (by simp [length_runColumns])).1

/-- The elements with their columns: in each maximal run the column is the greatest measure. -/
theorem sharesColumns_runColumns (measure : α → Nat) (xs : List α) :
    SharesColumns (fun p => belongs p.1) (fun p => leads p.1) (fun p => measure p.1) (fun p => p.2) 0
      (xs.zip (runColumns joins measure xs)) := by
  intro above run below hpairs hrun
  have hmax : IsMaximalRun belongs leads (above.map Prod.fst) (run.map Prod.fst) (below.map Prod.fst) :=
    isMaximalRun_map.mpr hrun
  have hcut := runColumns_cut hpairs hrun.nonempty (hmax.joins_above hjoins) (hmax.joins_below hjoins)
  rw [runColumns, List.splitBy_of_isChain hmax.nonempty (hmax.isRun.isChain hjoins), List.flatMap_singleton] at hcut
  have hcolumn : ∀ p ∈ run, p.2 = greatest ((run.map Prod.fst).map measure) := fun p hp =>
    List.eq_of_mem_replicate (hcut ▸ List.mem_map_of_mem hp)
  have hmeasures : (run.map Prod.fst).map measure ≠ [] := by simpa using hrun.nonempty
  obtain ⟨a, ha, hgreatest⟩ := List.mem_map.mp (greatest_mem hmeasures)
  obtain ⟨widest, hwidest, rfl⟩ := List.mem_map.mp ha
  refine ⟨widest, hwidest, fun p hp => ?_, fun p hp => (hcolumn p hp).trans hgreatest.symm⟩
  show measure p.1 ≤ measure widest.1
  rw [hgreatest]
  exact le_greatest (List.mem_map_of_mem (List.mem_map_of_mem hp))

/-- An element that belongs to no run has a column of its own. -/
theorem runColumns_of_not_belongs {xs : List α} {p : α × Nat} (hp : p ∈ xs.zip (runColumns joins measure xs))
    (h : ¬ belongs p.1) : p.2 = measure p.1 := by
  have hjoin : ∀ a, joins a p.1 = false ∧ joins p.1 a = false := fun a => by
    rw [← Bool.not_eq_true, ← Bool.not_eq_true, hjoins, hjoins]
    exact ⟨fun hab => h hab.2.1, fun hab => h hab.1⟩
  obtain ⟨above, below, hpairs⟩ := List.append_of_mem hp
  rw [← List.singleton_append, ← List.append_assoc] at hpairs
  have hcut : [p].map Prod.snd = runColumns joins measure ([p].map Prod.fst) := by
    refine runColumns_cut hpairs (by simp) ?_ ?_
    · rintro a - b ⟨⟩
      exact (hjoin a).1
    · rintro a ⟨⟩ b -
      exact (hjoin b).2
  have hsingle : runColumns joins measure ([p].map Prod.fst) = [max 0 (measure p.1)] := rfl
  rw [hsingle, Nat.zero_max] at hcut
  exact List.head_eq_of_cons_eq hcut

end Columns

end LiteralFill
