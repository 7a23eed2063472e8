import LiteralFill.Packages.Database
import Mathlib.Data.List.Basic
import Mathlib.Data.List.Induction

/-!
Where paths lead. A path is followed piece by piece, and the pieces that name nothing do not matter to a directory:
so paths with the same components lead to the same directory. The directory that a path is written in is the one
around the place it leads to, and a name joined to it leads there again.
-/

namespace LiteralFill

/-! ## Pieces -/

theorem splitAround_eq_splitOn (c : Char) (cs : List Char) : splitAround c cs = cs.splitOn c := by
  induction cs with
  | nil => rw [List.splitOn_nil]; rfl
  | cons d rest ih =>
    rw [List.splitOn_eq_splitOnP, List.splitOnP_cons_eq_if_modifyHead, ← List.splitOn_eq_splitOnP, ← ih]
    have hne : splitAround c rest ≠ [] := ih ▸ List.splitOn_ne_nil c rest
    rw [splitAround]
    by_cases hd : d = c
    · simp [hd]
    · have hbeq : (d == c) = false := by simpa using hd
      rw [if_neg hd, hbeq]
      cases hsplit : splitAround c rest with
      | nil => exact absurd hsplit hne
      | cons piece pieces => rfl

theorem not_mem_of_mem_splitAround {c : Char} {cs piece : List Char} (h : piece ∈ splitAround c cs) : c ∉ piece := by
  induction cs generalizing piece with
  | nil => simp_all [splitAround]
  | cons d rest ih =>
    rw [splitAround] at h
    split at h
    · rcases List.mem_cons.mp h with rfl | h
      · simp
      · exact ih h
    · next hd =>
      split at h
      · next first pieces hsplit =>
        rw [hsplit] at ih
        rcases List.mem_cons.mp h with rfl | h
        · simpa [Ne.symm hd] using ih List.mem_cons_self
        · exact ih (List.mem_cons_of_mem _ h)
      · rw [List.mem_singleton.mp h]
        simpa using Ne.symm hd

namespace Path

/-- The pieces of a path around a slash. -/
theorem segments_append (a b : List Char) :
    (Path.mk (String.ofList (a ++ '/' :: b))).segments =
      (Path.mk (String.ofList a)).segments ++ (Path.mk (String.ofList b)).segments := by
  simp only [segments, String.toList_ofList, splitAround_eq_splitOn, List.splitOn_append_cons_self, List.map_append]

/-- A text without a slash is one piece. -/
theorem segments_of_not_mem {name : String} (h : '/' ∉ name.toList) : (Path.mk name).segments = [name] := by
  simp [segments, splitAround_eq_splitOn, List.splitOn_eq_singleton h]

theorem segments_ne_nil (p : Path) : p.segments ≠ [] := by
  simp [segments, splitAround_eq_splitOn, List.splitOn_ne_nil]

/-- A path is its pieces with slashes between them. -/
theorem intercalate_segments (p : Path) : "/".intercalate p.segments = p.text := by
  apply String.toList_inj.mp
  rw [String.toList_intercalate, segments, List.map_map, splitAround_eq_splitOn]
  simp [Function.comp_def, List.intercalate_splitOn]

/-- The pieces of pieces with slashes between them. -/
theorem segments_intercalate {pieces : List String} (h : ∀ s ∈ pieces, '/' ∉ s.toList) (hne : pieces ≠ []) :
    (Path.mk ("/".intercalate pieces)).segments = pieces := by
  simp only [segments, String.toList_intercalate, splitAround_eq_splitOn]
  rw [show "/".toList = ['/'] from rfl, List.splitOn_intercalate]
  · simp [Function.comp_def]
  · simpa using h
  · simpa using hne

theorem not_mem_segments {p : Path} {s : String} (h : s ∈ p.segments) : '/' ∉ s.toList := by
  obtain ⟨piece, hpiece, rfl⟩ := List.mem_map.mp h
  simpa using not_mem_of_mem_splitAround hpiece

/-- A path starts at the root if its first piece is empty and another one follows. -/
theorem isAbsolute_iff {p : Path} : p.isAbsolute = true ↔ ∃ s rest, p.segments = "" :: s :: rest := by
  have htext := p.intercalate_segments
  unfold isAbsolute
  cases hsegments : p.segments with
  | nil => exact absurd hsegments p.segments_ne_nil
  | cons first rest =>
    have hfirst := not_mem_segments (hsegments ▸ List.mem_cons_self : first ∈ p.segments)
    rw [hsegments] at htext
    cases rest with
    | nil =>
      rw [String.intercalate_singleton] at htext
      rw [← htext]
      cases hhead : first.toList with
      | nil => simp
      | cons c cs =>
        have : c ≠ '/' := fun h => hfirst (by simp [hhead, h])
        simp [this]
    | cons s rest =>
      rw [String.intercalate_cons_cons] at htext
      rw [← htext]
      cases hhead : first.toList with
      | nil =>
        have : first = "" := by simpa using hhead
        simp [this]
      | cons c cs =>
        have hne : first ≠ "" := by rintro rfl; cases hhead
        have : c ≠ '/' := fun h => hfirst (by simp [hhead, h])
        simp [hhead, this, hne]

/-! ## Names -/

/-- The pieces of a path that name something. -/
def names (p : Path) : List String := p.segments.filter fun s => !isFiller s

/-- What the components begin with, before the names. -/
def lead (p : Path) : List Component :=
  if p.isAbsolute then [.root] else if p.segments.head? == some "." then [.here] else []

theorem components_eq (p : Path) : p.components = p.lead ++ p.names.map componentOf := by
  unfold components lead names
  split
  · rfl
  · split <;> rfl

theorem beq_iff {p q : Path} : (p == q) = true ↔ p.components = q.components := by
  show (p.components == q.components) = true ↔ _
  exact beq_iff_eq

theorem componentOf_injective : Function.Injective componentOf := by
  intro s t h
  unfold componentOf at h
  split at h <;> split at h <;> simp_all

theorem componentOf_ne (s : String) : componentOf s ≠ .root ∧ componentOf s ≠ .here := by
  unfold componentOf
  split <;> simp

theorem root_mem_components {p : Path} : .root ∈ p.components ↔ p.isAbsolute = true := by
  have hnames : Component.root ∉ p.names.map componentOf := by
    simpa using fun s _ => (componentOf_ne s).1
  rw [components_eq, List.mem_append, or_iff_left hnames]
  unfold lead
  split
  · simp_all
  · split <;> simp_all

theorem filter_components (p : Path) :
    p.components.filter (fun c => c ≠ .root ∧ c ≠ .here) = p.names.map componentOf := by
  have hlead : p.lead.filter (fun c => c ≠ .root ∧ c ≠ .here) = [] := by
    unfold lead
    split
    · rfl
    · split <;> rfl
  rw [components_eq, List.filter_append, hlead, List.nil_append, List.filter_eq_self]
  intro c hc
  obtain ⟨s, -, rfl⟩ := List.mem_map.mp hc
  simpa using componentOf_ne s

/-- The components tell whether a path starts at the root, and its names. -/
theorem eq_of_components {p q : Path} (h : p.components = q.components) :
    p.isAbsolute = q.isAbsolute ∧ p.names = q.names := by
  constructor
  · rw [Bool.eq_iff_iff, ← root_mem_components, ← root_mem_components, h]
  · apply List.map_injective_iff.mpr componentOf_injective
    rw [← filter_components, ← filter_components, h]

/-! ## Joining and the directory around -/

/-- A name that a directory may hold. -/
def IsName (name : String) : Prop := '/' ∉ name.toList ∧ isFiller name = false ∧ name ≠ ".."

instance : DecidablePred IsName := fun name =>
  inferInstanceAs (Decidable ('/' ∉ name.toList ∧ isFiller name = false ∧ name ≠ ".."))

theorem isAbsolute_of_not_mem {name : String} (h : '/' ∉ name.toList) : (Path.mk name).isAbsolute = false := by
  rw [Bool.eq_false_iff, ne_eq, isAbsolute_iff, segments_of_not_mem h]
  simp

section

variable {dir : Path} {inner : String} (hinner : (Path.mk inner).isAbsolute = false) (hdir : dir.text ≠ "")
include hinner hdir

/-- A path that does not start at the root, joined to another one. -/
theorem join_eq :
    dir.join inner =
      if dir.text.toList.getLast? == some '/' then ⟨dir.text ++ inner⟩ else ⟨dir.text ++ "/" ++ inner⟩ := by
  have hempty : dir.text.isEmpty = false := by simpa using hdir
  unfold join
  rw [hinner, hempty]
  rfl

/-- The pieces that are joined to a path follow its own, in the place of an empty last one. -/
theorem segments_join :
    (dir.join inner).segments = dir.segments ++ (Path.mk inner).segments ∨ ∃ pieces, pieces ≠ [] ∧
      dir.segments = pieces ++ [""] ∧ (dir.join inner).segments = pieces ++ (Path.mk inner).segments := by
  rw [join_eq hinner hdir]
  split
  · next hslash =>
    obtain ⟨xs, hxs⟩ : ∃ xs, dir.text.toList = xs ++ ['/'] :=
      List.getLast?_eq_some_iff.mp (by simpa using hslash)
    have hdir' : dir = ⟨String.ofList (xs ++ '/' :: [])⟩ := by
      rw [show dir = ⟨dir.text⟩ from rfl, ← hxs, String.ofList_toList]
    have hjoin : dir.text ++ inner = String.ofList (xs ++ '/' :: inner.toList) := by
      apply String.toList_inj.mp
      simp [hxs]
    right
    refine ⟨(Path.mk (String.ofList xs)).segments, segments_ne_nil _, ?_, ?_⟩
    · rw [hdir', segments_append]
      rfl
    · rw [hjoin, segments_append, String.ofList_toList]
  · left
    have hjoin : dir.text ++ "/" ++ inner = String.ofList (dir.text.toList ++ '/' :: inner.toList) := by
      apply String.toList_inj.mp
      simp
    rw [hjoin, segments_append, String.ofList_toList, String.ofList_toList]

theorem names_join : (dir.join inner).names = dir.names ++ (Path.mk inner).names := by
  unfold names
  rcases segments_join hinner hdir with h | ⟨pieces, -, hpieces, h⟩
  · simp [h]
  · simp [h, hpieces, show isFiller "" = true from rfl]

theorem head_join : (dir.join inner).segments.head? = dir.segments.head? := by
  rcases segments_join hinner hdir with h | ⟨pieces, hne, hpieces, h⟩
  · rw [h, List.head?_append_of_ne_nil _ dir.segments_ne_nil]
  · rw [h, hpieces, List.head?_append_of_ne_nil _ hne, List.head?_append_of_ne_nil _ hne]

theorem isAbsolute_join : (dir.join inner).isAbsolute = dir.isAbsolute := by
  have hne : dir.text.toList ≠ [] := by simpa using hdir
  rw [join_eq hinner hdir]
  unfold isAbsolute
  split
  · rw [String.toList_append, List.head?_append_of_ne_nil _ hne]
  · rw [String.toList_append, String.toList_append, List.append_assoc, List.head?_append_of_ne_nil _ hne]

/-- A path is joined to the components of a directory. -/
theorem components_join : (dir.join inner).components = dir.components ++ (Path.mk inner).names.map componentOf := by
  rw [components_eq, components_eq, names_join hinner hdir, List.map_append, List.append_assoc]
  unfold lead
  rw [isAbsolute_join hinner hdir, head_join hinner hdir]

end

theorem names_of_isName {name : String} (h : IsName name) : (Path.mk name).names = [name] := by
  simp [names, segments_of_not_mem h.1, h.2.1]

/-- A name is joined to the components of a directory as one more. -/
theorem components_join_name {dir : Path} {name : String} (hname : IsName name) (hdir : dir.text ≠ "") :
    (dir.join name).components = dir.components ++ [.normal name] := by
  rw [components_join (isAbsolute_of_not_mem hname.1) hdir, names_of_isName hname]
  simp [componentOf, hname.2.2]

/-! ### The directory around -/

theorem dropFillers_append {pieces : List String} {last : String} (h : isFiller last = false) :
    dropFillers (pieces ++ [last]) = pieces ++ [last] := by
  simp [dropFillers, h]

theorem dropFillers_append_of_filler {pieces : List String} {last : String} (h : isFiller last = true) :
    dropFillers (pieces ++ [last]) = dropFillers pieces := by
  simp [dropFillers, h]

theorem filter_dropFillers (pieces : List String) :
    (dropFillers pieces).filter (fun s => !isFiller s) = pieces.filter fun s => !isFiller s := by
  induction pieces using List.reverseRecOn with
  | nil => rfl
  | append_singleton rest last ih =>
    cases hlast : isFiller last with
    | false => rw [dropFillers_append hlast]
    | true => simp [dropFillers_append_of_filler hlast, ih, hlast]

/-- A first piece that names something is kept. -/
theorem dropFillers_cons {first : String} (h : isFiller first = false) (inner : List String) :
    ∃ rest, dropFillers (first :: inner) = first :: rest := by
  induction inner using List.reverseRecOn with
  | nil => exact ⟨[], @dropFillers_append [] first h⟩
  | append_singleton rest last ih =>
    rw [← List.cons_append]
    cases hlast : isFiller last with
    | false => exact ⟨rest ++ [last], dropFillers_append hlast⟩
    | true =>
      rw [dropFillers_append_of_filler hlast]
      exact ih

theorem mem_of_mem_dropFillers {pieces : List String} {s : String} (h : s ∈ dropFillers pieces) : s ∈ pieces := by
  simpa using (List.dropWhile_sublist _).subset (List.mem_reverse.mp h)

/-- The directory around pieces of which the last one names something. -/
theorem parentSegments_append {outer : List String} {last : String} (h : isFiller last = false) :
    parentSegments (outer ++ [last]) = some (dropFillers outer) := by
  have hne : outer ++ [last] ≠ [] := by simp
  unfold parentSegments
  rw [dropFillers_append h]
  split
  · contradiction
  · rw [List.dropLast_concat]

/-- What is kept of pieces whose last fillers are dropped: the first piece, and all that name something. -/
structure IsKept (pieces kept : List String) : Prop where
  head : kept.head? = pieces.head?
  names : kept.filter (fun s => !isFiller s) = pieces.filter fun s => !isFiller s
  subset : kept ⊆ pieces

theorem isKept_cons (first : String) (inner : List String) : IsKept (first :: inner) (first :: dropFillers inner) where
  head := rfl
  names := by rw [List.filter_cons, List.filter_cons, filter_dropFillers]
  subset := List.cons_subset_cons first fun _ => mem_of_mem_dropFillers

theorem isKept_dropFillers {first : String} (h : isFiller first = false) (inner : List String) :
    IsKept (first :: inner) (dropFillers (first :: inner)) where
  head := by
    obtain ⟨rest, hrest⟩ := dropFillers_cons h inner
    rw [hrest]
    rfl
  names := filter_dropFillers _
  subset _ := mem_of_mem_dropFillers

/-- The path of pieces of which the first is not empty. -/
theorem intercalate_facts {pieces : List String} (h : ∀ s ∈ pieces, '/' ∉ s.toList) {first : String}
    (hhead : pieces.head? = some first) (hfirst : first ≠ "") :
    (Path.mk ("/".intercalate pieces)).segments = pieces ∧
      (Path.mk ("/".intercalate pieces)).isAbsolute = false ∧ "/".intercalate pieces ≠ "" := by
  have hne : pieces ≠ [] := by rintro rfl; cases hhead
  have hsegments := segments_intercalate h hne
  refine ⟨hsegments, ?_, fun htext => ?_⟩
  · rw [Bool.eq_false_iff, ne_eq, isAbsolute_iff, hsegments]
    rintro ⟨s, rest, rfl⟩
    exact hfirst (Option.some.inj hhead).symm
  · rw [← hsegments, htext] at hhead
    exact hfirst (Option.some.inj hhead).symm

/-- The path of pieces behind the root. -/
def rooted (pieces : List String) : Path :=
  if pieces.isEmpty then ⟨"/"⟩ else ⟨"/" ++ "/".intercalate pieces⟩

theorem rooted_facts {pieces : List String} (h : ∀ s ∈ pieces, '/' ∉ s.toList) :
    (rooted pieces).isAbsolute = true ∧ (rooted pieces).names = pieces.filter (fun s => !isFiller s) ∧
      (rooted pieces).text ≠ "" ∧ (rooted pieces).segments.head? = some "" := by
  cases pieces with
  | nil => exact ⟨rfl, rfl, by decide, rfl⟩
  | cons s rest =>
    have hsegments : (rooted (s :: rest)).segments = "" :: s :: rest := by
      have happend := segments_append [] ("/".intercalate (s :: rest)).toList
      rw [String.ofList_toList, segments_intercalate h (by simp)] at happend
      exact Eq.trans (congrArg (fun text => (Path.mk text).segments) (String.toList_inj.mp (by simp))) happend
    refine ⟨isAbsolute_iff.mpr ⟨s, rest, hsegments⟩, ?_, fun htext => ?_, ?_⟩
    · rw [names, hsegments]
      rfl
    · have := congrArg String.length htext
      simp [rooted] at this
    · rw [hsegments]
      rfl

/-- The directory around a path whose last piece names something, by the first piece of what is around. -/
theorem parent_cases {p : Path} {outer : List String} {last : String} (hp : p.segments = outer ++ [last])
    (hlast : isFiller last = false) :
    (outer = [] ∧ p.isAbsolute = false ∧ p.parent = some ⟨""⟩) ∨
      (∃ kept, IsKept outer ("" :: kept) ∧ p.isAbsolute = true ∧ p.parent = some (rooted kept)) ∨
      ∃ kept first, IsKept outer kept ∧ kept.head? = some first ∧ first ≠ "" ∧ p.isAbsolute = false ∧
        p.parent = some ⟨"/".intercalate kept⟩ := by
  have habsolute := isAbsolute_iff (p := p)
  unfold parent
  rw [hp] at habsolute ⊢
  cases outer with
  | nil =>
    have hempty : last ≠ "" := by rintro rfl; cases hlast
    have hpoint : last ≠ "." := by rintro rfl; cases hlast
    have hpieces := @parentSegments_append [] last hlast
    rw [List.nil_append] at hpieces
    refine .inl ⟨rfl, ?_, by simp [hempty, hpoint, hpieces]; rfl⟩
    rw [Bool.eq_false_iff, ne_eq, habsolute]
    simp
  | cons first inner =>
    rw [List.cons_append] at habsolute ⊢
    by_cases hempty : first = ""
    · subst hempty
      have hroot : p.isAbsolute = true := habsolute.mpr (by cases inner <;> simp)
      refine .inr (.inl ⟨dropFillers inner, isKept_cons "" inner, hroot, ?_⟩)
      simp only [hroot, ↓reduceIte, parentSegments_append hlast]
      rfl
    have hrelative : p.isAbsolute = false := by
      rw [Bool.eq_false_iff, ne_eq, habsolute]
      rintro ⟨s, rest, h⟩
      exact hempty (List.cons.inj h).1
    by_cases hpoint : first = "."
    · subst hpoint
      refine .inr (.inr ⟨"." :: dropFillers inner, ".", isKept_cons "." inner, rfl, hempty, hrelative, ?_⟩)
      simp only [parentSegments_append hlast]
      rfl
    · have hnames : isFiller first = false := by simp [isFiller, hempty, hpoint]
      have hkept := isKept_dropFillers hnames inner
      have hpieces := @parentSegments_append (first :: inner) last hlast
      rw [List.cons_append] at hpieces
      refine .inr (.inr ⟨_, first, hkept, hkept.head, hempty, hrelative, ?_⟩)
      simp [hempty, hpoint, hpieces]

/-- The directory around a path whose last piece names something. -/
theorem parent_eq {p own : Path} {outer : List String} {last : String} (hp : p.segments = outer ++ [last])
    (hlast : isFiller last = false) (hparent : p.parent = some own) :
    own.isAbsolute = p.isAbsolute ∧ own.names = outer.filter (fun s => !isFiller s) ∧
      (outer = [] ∧ own.text = "" ∨ own.text ≠ "" ∧ own.segments.head? = p.segments.head?) := by
  have hslash {kept : List String} (h : kept ⊆ outer) : ∀ s ∈ kept, '/' ∉ s.toList := fun s hs =>
    not_mem_segments (hp ▸ List.mem_append_left _ (h hs))
  have hhead {kept : List String} {first : String} (h : IsKept outer kept) (hfirst : kept.head? = some first) :
      p.segments.head? = some first := by
    have houter : outer.head? = some first := h.head.symm.trans hfirst
    rw [hp, List.head?_append_of_ne_nil _ (by rintro rfl; cases houter), houter]
  rcases parent_cases hp hlast with ⟨rfl, hrelative, h⟩ | ⟨kept, hkept, hroot, h⟩ |
    ⟨kept, first, hkept, hfirst, hempty, hrelative, h⟩
  · cases hparent.symm.trans h
    exact ⟨hrelative.symm, rfl, .inl ⟨rfl, rfl⟩⟩
  · cases hparent.symm.trans h
    obtain ⟨habsolute, hnames, htext, hsegments⟩ :=
      rooted_facts (hslash (List.Subset.trans (List.subset_cons_self ..) hkept.subset))
    exact ⟨habsolute.trans hroot.symm, hnames.trans hkept.names, .inr ⟨htext, hsegments.trans (hhead hkept rfl).symm⟩⟩
  · cases hparent.symm.trans h
    obtain ⟨hsegments, habsolute, htext⟩ := intercalate_facts (hslash hkept.subset) hfirst hempty
    refine ⟨habsolute.trans hrelative.symm, ?_, .inr ⟨htext, ?_⟩⟩
    · rw [names, hsegments, hkept.names]
    · rw [hsegments, hfirst, hhead hkept hfirst]

end Path

/-! ## Places -/

namespace FileTree

variable (t : FileTree)

/-- Where paths start. -/
def start (p : Path) : Place := if p.isAbsolute then [] else t.current

theorem locate_eq_some {p : Path} {place : Place} :
    t.locate p = some place ↔ p.text ≠ "" ∧ t.follow (t.start p) p.segments = some place := by
  unfold locate start
  split
  · simp_all
  · simp_all

theorem follow_append (place : Place) (xs ys : List String) :
    t.follow place (xs ++ ys) = (t.follow place xs).bind (t.follow · ys) := by
  induction xs generalizing place with
  | nil => rfl
  | cons s rest ih =>
    rw [List.cons_append, follow, follow]
    split
    · rfl
    · split
      · exact ih _
      · split
        · exact ih _
        · dsimp only
          split
          · exact ih _
          · rfl

/-- The pieces that name nothing lead nowhere else. -/
theorem follow_filter {place place' : Place} {pieces : List String} (h : t.follow place pieces = some place') :
    t.follow place (pieces.filter fun s => !Path.isFiller s) = some place' := by
  induction pieces generalizing place with
  | nil => exact h
  | cons s rest ih =>
    rw [follow] at h
    split at h
    · cases h
    · next hdir =>
      split at h
      · next hfiller => simpa [hfiller] using ih h
      · next hfiller =>
        rw [List.filter_cons_of_pos (by simpa using hfiller), follow, if_neg hdir, if_neg hfiller]
        split at h
        · next hup => rw [if_pos hup]; exact ih h
        · next hup =>
          rw [if_neg hup]
          dsimp only at h ⊢
          split at h
          · next hsome => rw [if_pos hsome]; exact ih h
          · cases h

theorem follow_singleton {place inner : Place} {name : String} (hname : Path.isFiller name = false)
    (hup : name ≠ "..") : t.follow place [name] = some inner ↔
      t.isDirectoryAt place = true ∧ inner = place ++ [name] ∧ (t.entryAt inner).isSome = true := by
  simp only [follow, hname, Bool.false_eq_true, ↓reduceIte, beq_iff_eq, hup]
  cases hdir : t.isDirectoryAt place with
  | false => simp
  | true =>
    simp only [Bool.not_true, Bool.false_eq_true, ↓reduceIte, true_and]
    split
    · next hsome =>
      constructor
      · rintro ⟨⟩
        exact ⟨rfl, hsome⟩
      · rintro ⟨rfl, -⟩
        rfl
    · next hnone =>
      constructor
      · rintro ⟨⟩
      · rintro ⟨rfl, hsome⟩
        exact absurd hsome hnone

variable {t}

/-- Paths with the same components lead to the same place, if they lead anywhere. -/
theorem eq_of_components {p q : Path} (h : p.components = q.components) {a b : Place} (hp : t.locate p = some a)
    (hq : t.locate q = some b) : a = b := by
  obtain ⟨habsolute, hnames⟩ := Path.eq_of_components h
  have hp' := follow_filter t ((locate_eq_some t).mp hp).2
  have hq' := follow_filter t ((locate_eq_some t).mp hq).2
  unfold Path.names at hnames
  unfold start at hp' hq'
  rw [habsolute, hnames] at hp'
  exact Option.some.inj (hp'.symm.trans hq')

theorem exists_locate {p : Path} (h : t.isDirectory p = true) : ∃ d, t.locate p = some d := by
  unfold isDirectory entry at h
  cases hd : t.locate p with
  | some d => exact ⟨d, rfl⟩
  | none =>
    rw [hd] at h
    cases h

/-- A path that is joined to that of a directory is followed from there. -/
theorem locate_join {dir : Path} {d : Place} {inner : String} (hinner : (Path.mk inner).isAbsolute = false)
    (hdir : t.locate dir = some d) :
    t.locate (dir.join inner) = t.follow d (Path.mk inner).segments := by
  obtain ⟨htext, hfollow⟩ := (locate_eq_some t).mp hdir
  have hjoined : (dir.join inner).text ≠ "" := by
    rw [Path.join_eq hinner htext]
    split <;> simp [htext]
  have hlocate : t.locate (dir.join inner) = t.follow (t.start dir) (dir.join inner).segments := by
    unfold locate start
    rw [Path.isAbsolute_join hinner htext, if_neg (by simpa using hjoined)]
  rw [hlocate]
  rcases Path.segments_join hinner htext with hsegments | ⟨pieces, -, hpieces, hsegments⟩
  · rw [hsegments, follow_append, hfollow]
    rfl
  · rw [hpieces, follow_append] at hfollow
    obtain ⟨d', hd', hend⟩ := Option.bind_eq_some_iff.mp hfollow
    obtain rfl : d' = d := Option.some.inj (follow_filter t hend)
    rw [hsegments, follow_append, hd']
    rfl

/-- A name joined to the path of a directory leads to the entry of that name in it. -/
theorem locate_join_name {dir : Path} {d : Place} {name : String} (hname : Path.IsName name)
    (hdir : t.locate dir = some d) (hd : t.isDirectoryAt d = true) (hentry : (t.entryAt (d ++ [name])).isSome = true) :
    t.locate (dir.join name) = some (d ++ [name]) := by
  rw [locate_join (Path.isAbsolute_of_not_mem hname.1) hdir, Path.segments_of_not_mem hname.1]
  exact (follow_singleton t hname.2.1 hname.2.2).mpr ⟨hd, rfl, hentry⟩

/-- The entries of a tree are named as files are, and stand in directories. -/
structure WellFormed (t : FileTree) : Prop where
  names : ∀ e ∈ t.entries, ∀ name ∈ e.1, Path.IsName name
  around : ∀ e ∈ t.entries, t.isDirectoryAt e.1.dropLast = true

theorem WellFormed.isDirectoryAt_dropLast (h : t.WellFormed) {place : Place} (hp : t.isDirectoryAt place = true) :
    t.isDirectoryAt place.dropLast = true := by
  cases place with
  | nil => exact hp
  | cons first rest =>
    have hentry : t.entries.lookup (first :: rest) = some .directory := beq_iff_eq.mp hp
    obtain ⟨l₁, l₂, hl, -⟩ := List.lookup_eq_some_iff.mp hentry
    exact h.around (first :: rest, .directory) (by simp [hl])

/-- A file stands in the directory that its path leads to without its last piece. -/
theorem WellFormed.outer (h : t.WellFormed) {p : Path} {place : Place} (hp : t.locate p = some place)
    (hfile : t.isDirectoryAt place = false) : ∃ outer last d, p.segments = outer ++ [last] ∧ Path.IsName last ∧
      t.follow (t.start p) outer = some d ∧ t.isDirectoryAt d = true ∧ place = d ++ [last] := by
  obtain ⟨-, hfollow⟩ := (locate_eq_some t).mp hp
  obtain ⟨outer, last, hsegments⟩ : ∃ outer last, p.segments = outer ++ [last] :=
    ⟨_, _, (List.dropLast_append_getLast p.segments_ne_nil).symm⟩
  rw [hsegments, follow_append] at hfollow
  obtain ⟨d, hd, hlast⟩ := Option.bind_eq_some_iff.mp hfollow
  have hdir : t.isDirectoryAt d = true := by
    by_contra hdir
    rw [follow, if_pos (by simpa using hdir)] at hlast
    cases hlast
  have hfiller : Path.isFiller last = false := by
    by_contra hfiller
    rw [follow, if_neg (by simp [hdir]), if_pos (by simpa using hfiller)] at hlast
    cases hlast
    rw [hdir] at hfile
    cases hfile
  have hup : last ≠ ".." := by
    rintro rfl
    rw [follow, if_neg (by simp [hdir]), if_neg (by simp [hfiller])] at hlast
    cases hlast
    rw [h.isDirectoryAt_dropLast hdir] at hfile
    cases hfile
  have hname : Path.IsName last := ⟨Path.not_mem_segments (p := p) (hsegments ▸ by simp), hfiller, hup⟩
  obtain ⟨-, hplace, -⟩ := (follow_singleton t hfiller hup).mp hlast
  exact ⟨outer, last, d, hsegments, hname, hd, hdir, hplace⟩

section

variable (h : t.WellFormed) {p own : Path} {place : Place} (hp : t.locate p = some place)
  (hfile : t.isDirectoryAt place = false) (hparent : p.parent = some own)
include h hp hfile hparent

/-- A path with the components of the directory that a path of a file is written in leads to the directory of the
file. -/
theorem WellFormed.eq_dropLast {dir : Path} {d : Place} (hdir : dir.components = own.components)
    (hd : t.locate dir = some d) : d = place.dropLast := by
  obtain ⟨outer, last, d₀, hsegments, hname, houter, -, rfl⟩ := h.outer hp hfile
  obtain ⟨habsolute, hnames, -⟩ := Path.parent_eq hsegments hname.2.1 hparent
  obtain ⟨habsolute', hnames'⟩ := Path.eq_of_components hdir
  have houter' := follow_filter t houter
  have hd' := follow_filter t ((locate_eq_some t).mp hd).2
  unfold start at houter' hd'
  rw [← hnames, ← habsolute, ← habsolute', ← hnames'] at houter'
  rw [List.dropLast_concat]
  exact Option.some.inj (hd'.symm.trans houter')

/-- The file is the one of its name in the directory that its path is written in. -/
theorem WellFormed.components_join {d : Place} {name : String} (hown : t.locate own = some d)
    (hplace : d ++ [name] = place) : (own.join name).components = p.components := by
  have htext := ((locate_eq_some t).mp hown).1
  obtain ⟨outer, last, d₀, hsegments, hname, houter, -, hlast⟩ := h.outer hp hfile
  obtain rfl : name = last := by
    have := hplace.trans hlast
    simpa using (List.append_inj' this rfl).2
  obtain ⟨habsolute, hnames, hhead⟩ := Path.parent_eq hsegments hname.2.1 hparent
  have hlead : own.lead = p.lead := by
    unfold Path.lead
    rw [habsolute, (hhead.resolve_left fun h => htext h.2).2]
  have hcomponent : Path.componentOf name = .normal name := by simp [Path.componentOf, hname.2.2]
  have hfiller := hname.2.1
  rw [Path.components_join_name hname htext, Path.components_eq, Path.components_eq p, hlead, hnames]
  simp [Path.names, hsegments, hfiller, hcomponent]

end

/-- What a directory holds shows in the places of the entries. -/
theorem filterMap_childName (t : FileTree) (d : Place) : t.entries.filterMap (fun (inner, _) => childName d inner) =
    (t.entries.map (·.1)).filterMap (childName d) := by
  rw [List.filterMap_map]
  rfl

/-- Two trees that differ at most in the bytes of the file at a place. -/
structure SameBut (place : Place) (t t' : FileTree) : Prop where
  current : t'.current = t.current
  places : t'.entries.map (·.1) = t.entries.map (·.1)
  elsewhere : ∀ other, other ≠ place → t'.entryAt other = t.entryAt other
  file : ∃ bytes bytes', t.entryAt place = some (.file bytes) ∧ t'.entryAt place = some (.file bytes')

namespace SameBut

variable {place : Place} {t' : FileTree} (h : SameBut place t t')
include h

theorem isDirectoryAt_place : t.isDirectoryAt place = false := by
  obtain ⟨bytes, bytes', hfile, -⟩ := h.file
  simp [FileTree.isDirectoryAt, hfile]

theorem isDirectoryAt (other : Place) : t'.isDirectoryAt other = t.isDirectoryAt other := by
  unfold FileTree.isDirectoryAt
  by_cases hother : other = place
  · obtain ⟨bytes, bytes', hfile, hfile'⟩ := h.file
    simp [hother, hfile, hfile']
  · rw [h.elsewhere other hother]

theorem isSome_entryAt (other : Place) : (t'.entryAt other).isSome = (t.entryAt other).isSome := by
  by_cases hother : other = place
  · obtain ⟨bytes, bytes', hfile, hfile'⟩ := h.file
    simp [hother, hfile, hfile']
  · rw [h.elsewhere other hother]

theorem follow (from' : Place) (pieces : List String) : t'.follow from' pieces = t.follow from' pieces := by
  induction pieces generalizing from' with
  | nil => rfl
  | cons s rest ih => simp only [FileTree.follow, h.isDirectoryAt, h.isSome_entryAt, ih]

theorem locate (p : Path) : t'.locate p = t.locate p := by
  simp only [FileTree.locate, h.follow, h.current]

theorem isDirectory (p : Path) : t'.isDirectory p = t.isDirectory p := by
  have hentry (t : FileTree) : t.isDirectory p = ((t.locate p).map t.isDirectoryAt).getD false := by
    unfold FileTree.isDirectory FileTree.entry FileTree.isDirectoryAt
    cases t.locate p <;> rfl
  rw [hentry, hentry, h.locate]
  congr 2
  exact funext h.isDirectoryAt

theorem list (p : Path) : t'.list p = t.list p := by
  simp only [FileTree.list, h.locate, h.isDirectoryAt, filterMap_childName, h.places]

theorem readText {p : Path} (hp : t.locate p ≠ some place) : t'.readText p = t.readText p := by
  have hentry : t'.entry p = t.entry p := by
    unfold FileTree.entry
    rw [h.locate]
    cases hplace : t.locate p with
    | none => rfl
    | some other => exact h.elsewhere other fun hother => hp (hother ▸ hplace)
  simp only [FileTree.readText, FileTree.readBytes, hentry]

end SameBut

end FileTree

end LiteralFill
