import LiteralFill.Proofs.Packages.Spellings

/-!
The directories around a path. The one that holds a path has its components but the last, so going out from a path
comes by every directory that the path lies in as it is written, the innermost first. A file in such a directory is
found there, however the directory is spelled on the way.
-/

namespace LiteralFill

/-- There are not more pieces with something in them than there are characters. -/
theorem length_filter_splitAround_le (c : Char) (cs : List Char) :
    ((splitAround c cs).filter (· ≠ [])).length ≤ cs.length := by
  induction cs with
  | nil => exact Nat.le_refl _
  | cons d cs ih =>
    rw [splitAround]
    split
    · exact Nat.le_succ_of_le (by simpa using ih)
    · split
      · next piece pieces hsplit =>
        have hpieces : (pieces.filter (· ≠ [])).length ≤ cs.length := by
          rw [hsplit] at ih
          exact Nat.le_trans ((List.sublist_cons_self ..).filter _).length_le ih
        simpa using hpieces
      · simp

namespace Path

/-- A path lies in a directory, or is its path, as both are written. -/
structure IsIn (p dir : Path) : Prop where
  isAbsolute : dir.isAbsolute = p.isAbsolute
  components : dir.components <+: p.components

/-! ## The directory that holds a path -/

theorem dropFillers_append_fillers (pieces : List String) {fillers : List String}
    (h : ∀ s ∈ fillers, isFiller s = true) : dropFillers (pieces ++ fillers) = dropFillers pieces := by
  induction fillers using List.reverseRecOn with
  | nil => rw [List.append_nil]
  | append_singleton rest last ih =>
    rw [← List.append_assoc, dropFillers_append_of_filler (h last (by simp))]
    exact ih fun s hs => h s (List.mem_append_left _ hs)

/-- Pieces, if one of them names something: those before the last of these, that one, and fillers. -/
theorem exists_last {pieces : List String} (h : pieces.filter (fun s => !isFiller s) ≠ []) :
    ∃ outer last fillers, pieces = outer ++ [last] ++ fillers ∧ isFiller last = false ∧
      ∀ s ∈ fillers, isFiller s = true := by
  induction pieces using List.reverseRecOn with
  | nil => exact absurd rfl h
  | append_singleton rest last ih =>
    cases hlast : isFiller last with
    | false => exact ⟨rest, last, [], by simp, hlast, by simp⟩
    | true =>
      obtain ⟨outer, name, fillers, rfl, hname, hfillers⟩ := ih (by simpa [hlast] using h)
      refine ⟨outer, name, fillers ++ [last], by simp, hname, fun s hs => ?_⟩
      rcases List.mem_append.mp hs with hs | hs
      · exact hfillers s hs
      · rwa [List.mem_singleton.mp hs]

/-- Fillers at the end of a path do not matter to the directory that holds it. -/
theorem parent_of_fillers {p q : Path} {fillers : List String} (hp : p.segments = q.segments ++ fillers)
    (hfillers : ∀ s ∈ fillers, isFiller s = true) (habsolute : p.isAbsolute = q.isAbsolute) : p.parent = q.parent := by
  have hsame (pieces : List String) : parentSegments (pieces ++ fillers) = parentSegments pieces := by
    rw [parentSegments, parentSegments, dropFillers_append_fillers pieces hfillers]
  unfold parent
  rw [hp, habsolute]
  cases hq : q.segments with
  | nil => exact absurd hq q.segments_ne_nil
  | cons first rest =>
    rw [List.cons_append]
    by_cases hempty : first = ""
    · subst hempty
      simp only [hsame]
    · by_cases hpoint : first = "."
      · subst hpoint
        simp only [hsame]
      · have hpieces := hsame (first :: rest)
        rw [List.cons_append] at hpieces
        simp [hempty, hpoint, hpieces]

/-- A directory holds each path that ends with a piece that names something. -/
theorem exists_parent_of_last {p : Path} {outer : List String} {last : String} (hp : p.segments = outer ++ [last])
    (hlast : isFiller last = false) : ∃ q, p.parent = some q := by
  rcases parent_cases hp hlast with ⟨-, -, h⟩ | ⟨kept, -, -, h⟩ | ⟨kept, first, -, -, -, -, h⟩
  · exact ⟨_, h⟩
  · exact ⟨_, h⟩
  · exact ⟨_, h⟩

/-- A path of a leading point and nothing that names something is held by the directory without a name. -/
theorem parent_of_point {p : Path} (hpoint : p.segments.head? = some ".") (hnames : p.names = []) :
    p.parent = some ⟨""⟩ := by
  obtain ⟨rest, hsegments⟩ := List.head?_eq_some_iff.mp hpoint
  have hfillers : ∀ s ∈ rest, isFiller s = true := by
    rw [names, List.filter_eq_nil_iff, hsegments] at hnames
    exact fun s hs => by simpa using hnames s (List.mem_cons_of_mem _ hs)
  have hdrop := dropFillers_append_fillers [] hfillers
  rw [List.nil_append] at hdrop
  have hrest : parentSegments rest = none := by
    rw [parentSegments, hdrop]
    rfl
  unfold parent
  rw [hsegments]
  simp only [hrest]
  rfl

/-- The directory that holds a path with a piece that names something has the components before the last one. -/
theorem exists_parent_of_names {p : Path} (h : p.names ≠ []) : ∃ q last, p.parent = some q ∧
    q.isAbsolute = p.isAbsolute ∧ p.components = q.components ++ [componentOf last] := by
  obtain ⟨pieces, last, fillers, hsegments, hlast, hfillers⟩ := exists_last h
  have hslash : ∀ s ∈ pieces ++ [last], '/' ∉ s.toList := fun s hs =>
    not_mem_segments (hsegments ▸ List.mem_append_left _ hs)
  -- the path without the fillers at its end
  have hclean := segments_intercalate hslash (by simp)
  have habsolute : p.isAbsolute = (Path.mk ("/".intercalate (pieces ++ [last]))).isAbsolute := by
    have hne : last ≠ "" := by rintro rfl; cases hlast
    rw [Bool.eq_iff_iff, isAbsolute_iff, isAbsolute_iff, hsegments, hclean]
    cases pieces with
    | nil => simp [hne]
    | cons first inner => cases inner <;> simp
  obtain ⟨q, hq⟩ := exists_parent_of_last hclean hlast
  have hparent : p.parent = some q := (parent_of_fillers (hclean.symm ▸ hsegments) hfillers habsolute).trans hq
  obtain ⟨hown, hinner, hhead⟩ := parent_eq hclean hlast hq
  have hlead : q.lead = p.lead := by
    rw [lead, lead, hown.trans habsolute.symm]
    rcases hhead with ⟨rfl, htext⟩ | ⟨-, hhead⟩
    · have hpoint : last ≠ "." := by rintro rfl; cases hlast
      have hempty : q.segments = [""] := by rw [show q = ⟨""⟩ from congrArg Path.mk htext]; rfl
      simp [hempty, hsegments, hpoint]
    · rw [hhead, hclean, hsegments, List.head?_append_of_ne_nil _ (by simp : pieces ++ [last] ≠ [])]
  have hnames : p.names = q.names ++ [last] := by
    have hnone : fillers.filter (fun s => !isFiller s) = [] := List.filter_eq_nil_iff.mpr fun s hs => by
      simp [hfillers s hs]
    rw [hinner]
    simp [names, hsegments, hnone, hlast]
  refine ⟨q, last, hparent, hown.trans habsolute.symm, ?_⟩
  rw [components_eq, components_eq q, hlead, hnames, List.map_append, List.append_assoc]
  rfl

/-- The directory that holds a path with one component more than some. -/
theorem exists_parent {p : Path} {outer : List Component} {c : Component} (hp : p.components = outer ++ [c])
    (hc : c ≠ .root) : ∃ q, p.parent = some q ∧ q.components = outer ∧ q.isAbsolute = p.isAbsolute := by
  by_cases hnames : p.names = []
  · -- only a leading point is left that can be the last component
    rw [components_eq, hnames, List.map_nil, List.append_nil, lead] at hp
    split at hp
    · have hlast : [Component.root] = [c] := (List.append_inj' (List.nil_append _ |>.trans hp) rfl).2
      exact absurd (List.cons.inj hlast).1.symm hc
    · next habsolute =>
      split at hp
      · next hpoint =>
        have houter : [] = outer := (List.append_inj' (List.nil_append _ |>.trans hp) rfl).1
        exact ⟨⟨""⟩, parent_of_point (beq_iff_eq.mp hpoint) hnames, houter, (Bool.eq_false_iff.mpr habsolute).symm⟩
      · simp at hp
  · obtain ⟨q, last, hparent, habsolute, hcomponents⟩ := exists_parent_of_names hnames
    exact ⟨q, hparent, (List.append_inj' (hcomponents.symm.trans hp) rfl).1, habsolute⟩

/-! ## All of them -/

theorem ancestorsWithin_of_parent {p q : Path} (h : p.parent = some q) (fuel : Nat) :
    p.ancestorsWithin (fuel + 1) = p :: q.ancestorsWithin fuel := by
  rw [ancestorsWithin, h]

theorem exists_ancestorsWithin (p : Path) (fuel : Nat) : ∃ outer, p.ancestorsWithin fuel = p :: outer := by
  cases fuel with
  | zero => exact ⟨[], rfl⟩
  | succ fuel =>
    rw [ancestorsWithin]
    split
    · exact ⟨_, rfl⟩
    · exact ⟨[], rfl⟩

/-- What the directory is that one comes by on the way out from a path, and what those before it are. -/
theorem ancestorsWithin_split {base inner : List Component} (hroot : .root ∉ inner) {p : Path} {fuel : Nat}
    (hp : p.components = base ++ inner) (hfuel : inner.length ≤ fuel) :
    ∃ nearer d outer, p.ancestorsWithin fuel = nearer ++ d :: outer ∧ d.components = base ∧
      ∀ q ∈ nearer, q.isAbsolute = p.isAbsolute ∧ base <+: q.components ∧ q.components <+: p.components ∧
        q.components ≠ base := by
  induction inner using List.reverseRecOn generalizing p fuel with
  | nil =>
    obtain ⟨outer, houter⟩ := exists_ancestorsWithin p fuel
    exact ⟨[], p, outer, houter, by simpa using hp, by simp⟩
  | append_singleton inner c ih =>
    rw [List.mem_append, not_or] at hroot
    rw [List.length_append, List.length_singleton] at hfuel
    cases fuel with
    | zero => cases hfuel
    | succ fuel =>
      obtain ⟨q, hparent, hq, habsolute⟩ := exists_parent (hp.trans (List.append_assoc ..).symm)
        fun hc => hroot.2 (by simp [hc])
      obtain ⟨nearer, d, outer, hancestors, hd, hnearer⟩ := ih hroot.1 hq (Nat.le_of_succ_le_succ hfuel)
      have hinside : q.components <+: p.components := ⟨[c], by rw [hp, hq, List.append_assoc]⟩
      refine ⟨p :: nearer, d, outer, by rw [ancestorsWithin_of_parent hparent, hancestors, List.cons_append], hd, ?_⟩
      rw [List.forall_mem_cons]
      refine ⟨⟨rfl, ⟨_, hp.symm⟩, List.prefix_rfl, by simp [hp]⟩, fun r hr => ?_⟩
      obtain ⟨hr₁, hr₂, hr₃, hr₄⟩ := hnearer r hr
      exact ⟨hr₁.trans habsolute, hr₂, hr₃.trans hinside, hr₄⟩

/-- There are not more pieces that name something than pieces with something in them. -/
theorem length_filter_isFiller_le (pieces : List String) :
    (pieces.filter fun s => !isFiller s).length ≤ (pieces.filter (· ≠ "")).length := by
  refine ((List.monotone_filter_right pieces fun s hs => ?_).length_le : _)
  have hs' : isFiller s = false := by simpa using hs
  simpa using fun hempty : s = "" => by rw [hempty] at hs'; cases hs'

section

variable {p dir : Path} (h : p.IsIn dir) {inner : List Component} (hinner : p.components = dir.components ++ inner)
include h hinner

/-- The components of a path behind those of a directory that it lies in do not lead to the root. -/
theorem IsIn.root_not_mem : .root ∉ inner := by
  intro hroot
  have habsolute : p.isAbsolute = true := root_mem_components.mp (hinner ▸ List.mem_append_right _ hroot)
  obtain ⟨rest, hrest⟩ : ∃ rest, dir.components = .root :: rest := by
    rw [components_eq, lead, h.isAbsolute, habsolute]
    exact ⟨_, rfl⟩
  rw [components_eq, lead, habsolute, hrest] at hinner
  have htail : p.names.map componentOf = rest ++ inner := by simpa using hinner
  obtain ⟨s, -, hs⟩ := List.mem_map.mp (htail ▸ List.mem_append_right rest hroot : .root ∈ p.names.map componentOf)
  exact (componentOf_ne s).1 hs

/-- There are not more of them than characters in the path. -/
theorem IsIn.length_le : inner.length ≤ p.text.length := by
  have hcount : (p.segments.filter (· ≠ "")).length ≤ p.text.length := by
    have hfilter : p.segments.filter (· ≠ "") =
        ((splitAround '/' p.text.toList).filter (· ≠ [])).map String.ofList := by
      rw [segments, List.filter_map]
      congr 2
      funext piece
      simp
    rw [hfilter, List.length_map, ← String.length_toList]
    exact length_filter_splitAround_le _ _
  have hnames : p.names.length ≤ (p.segments.filter (· ≠ "")).length := length_filter_isFiller_le p.segments
  have hlength := congrArg List.length hinner
  rw [List.length_append, components_eq, List.length_append, List.length_map, lead] at hlength
  split at hlength
  · next habsolute =>
    -- the root is a component of the directory
    have hpos : 0 < dir.components.length :=
      List.length_pos_of_mem (root_mem_components.mpr (h.isAbsolute.trans habsolute))
    rw [List.length_singleton] at hlength
    omega
  · split at hlength
    · next hpoint =>
      -- the leading point is a piece with something in it
      obtain ⟨rest, hsegments⟩ := List.head?_eq_some_iff.mp (beq_iff_eq.mp hpoint)
      have hless : p.names.length < (p.segments.filter (· ≠ "")).length := by
        rw [names, hsegments, List.filter_cons_of_neg (by decide), List.filter_cons_of_pos (by decide)]
        exact Nat.lt_succ_of_le (length_filter_isFiller_le rest)
      rw [List.length_singleton] at hlength
      omega
    · rw [List.length_nil] at hlength
      omega

end

/-- On the way out from a path one comes by each directory that it lies in; those before it lie in the directory too and
the path lies in them. -/
theorem IsIn.ancestors {p dir : Path} (h : p.IsIn dir) : ∃ nearer d outer, p.ancestors = nearer ++ d :: outer ∧
    d.components = dir.components ∧ ∀ q ∈ nearer, q.IsIn dir ∧ p.IsIn q ∧ q.components ≠ dir.components := by
  obtain ⟨inner, hinner⟩ := h.components
  obtain ⟨nearer, d, outer, hancestors, hd, hnearer⟩ :=
    ancestorsWithin_split (h.root_not_mem hinner.symm) hinner.symm (h.length_le hinner.symm)
  refine ⟨nearer, d, outer, hancestors, hd, fun q hq => ?_⟩
  obtain ⟨habsolute, hdir, hp, hne⟩ := hnearer q hq
  exact ⟨⟨h.isAbsolute.trans habsolute.symm, hdir⟩, ⟨habsolute, hp⟩, hne⟩

end Path

/-! ## Files in a directory -/

namespace FileTree

variable {t : FileTree} {name : String} (hname : Path.IsName name)
include hname

/-- What a name in a directory leads to is reached through the directory. -/
theorem exists_locate_of_join {dir : Path} (hdir : dir.text ≠ "") {place : Place}
    (h : t.locate (dir.join name) = some place) : ∃ d, t.locate dir = some d ∧ t.isDirectoryAt d = true := by
  have hinner := Path.isAbsolute_of_not_mem hname.1
  obtain ⟨-, hfollow⟩ := (locate_eq_some t).mp h
  have hstart : t.start (dir.join name) = t.start dir := by rw [start, start, Path.isAbsolute_join hinner hdir]
  rw [hstart] at hfollow
  -- the pieces before the name lead to a directory
  have hbefore {pieces : List String} (hpieces : (dir.join name).segments = pieces ++ (Path.mk name).segments) :
      ∃ d, t.follow (t.start dir) pieces = some d ∧ t.isDirectoryAt d = true := by
    rw [hpieces, follow_append, Path.segments_of_not_mem hname.1] at hfollow
    obtain ⟨d, hd, hlast⟩ := Option.bind_eq_some_iff.mp hfollow
    exact ⟨d, hd, ((follow_singleton t hname.2.1 hname.2.2).mp hlast).1⟩
  rcases Path.segments_join hinner hdir with hsegments | ⟨pieces, -, hpieces, hsegments⟩
  · obtain ⟨d, hd, hisdir⟩ := hbefore hsegments
    exact ⟨d, (locate_eq_some t).mpr ⟨hdir, hd⟩, hisdir⟩
  · obtain ⟨d, hd, hisdir⟩ := hbefore hsegments
    refine ⟨d, (locate_eq_some t).mpr ⟨hdir, ?_⟩, hisdir⟩
    rw [hpieces, follow_append, hd]
    simp [follow, hisdir, Path.isFiller]

variable {p q : Path} (h : p.components = q.components)
include h

/-- A name in a directory leads to the same place, however the directory is written. -/
theorem locate_join_of_components : t.locate (p.join name) = t.locate (q.join name) := by
  have hsome {p q : Path} (h : p.components = q.components) {place : Place} (hp : t.locate (p.join name) = some place) :
      t.locate (q.join name) = some place := by
    by_cases htext : p.text = ""
    · have hq : q.text = "" := Path.text_eq_empty_iff.mpr (h ▸ Path.text_eq_empty_iff.mp htext)
      rwa [show q = p from congrArg Path.mk (hq.trans htext.symm)]
    · obtain ⟨d, hd, hisdir⟩ := exists_locate_of_join hname htext hp
      rw [← hp, (join_of_components h hd hisdir name).2]
  exact Option.ext fun place => ⟨hsome h, hsome h.symm⟩

theorem readText_join_of_components : t.readText (p.join name) = t.readText (q.join name) := by
  rw [readText, readText, readBytes, readBytes, entry, entry, locate_join_of_components hname h]

theorem isFile_join_of_components : t.isFile (p.join name) = t.isFile (q.join name) := by
  rw [isFile, isFile, entry, entry, locate_join_of_components hname h]

end FileTree

end LiteralFill
