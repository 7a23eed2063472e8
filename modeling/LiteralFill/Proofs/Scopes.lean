import LiteralFill.Proofs.Bodies
import Mathlib.Data.List.Nodup

/-!
Block scoping. A local type is in scope from its name to the end of the innermost block around it, a pair of
braces or a clause of a switch, and of the types of one name that are in scope the last one counts. A file looks
up the type with the shortest function body instead, and among the types of one body the first; the two agree
where local types stand directly in the bodies of functions, in each of them with names of their own.
-/

namespace LiteralFill

namespace SourceFile

/-! ## Types in scope -/

/-- From each brace of a file through the one that closes it. -/
def blocks (f : SourceFile) : List Span :=
  let s := (Lexed.ofText f.text).1
  ((List.range s.size).filter fun i => s.kindAt i == some (.opener .brace)).map s.blockAt

/-- The positions where the clauses of switches begin. -/
def clauses (f : SourceFile) : List Nat :=
  let s := (Lexed.ofText f.text).1
  ((List.range s.size).filter fun i =>
    s.kindAt i == some (.keyword .caseWord) || s.kindAt i == some (.keyword .defaultWord)).map s.startAt

/-- The position is behind the name of the type, in all blocks around it, and in its clause: a clause that begins
in between is one of a switch behind the type. -/
structure InScope (f : SourceFile) (d : TypeDecl) (x : Nat) : Prop where
  behind : d.span.start ≤ x
  inBlocks : ∀ b ∈ f.blocks, b.contains d.span.start → b.contains x
  inClause : ∀ k ∈ f.clauses, d.span.start < k → k ≤ x → ∃ b ∈ f.blocks, b.contains k ∧ ¬ b.contains d.span.start

instance (f : SourceFile) (d : TypeDecl) (x : Nat) : Decidable (f.InScope d x) :=
  decidable_of_iff
    (d.span.start ≤ x ∧ (∀ b ∈ f.blocks, b.contains d.span.start → b.contains x) ∧
      ∀ k ∈ f.clauses, d.span.start < k → k ≤ x → ∃ b ∈ f.blocks, b.contains k ∧ ¬ b.contains d.span.start)
    ⟨fun ⟨h₁, h₂, h₃⟩ => ⟨h₁, h₂, h₃⟩, fun h => ⟨h.behind, h.inBlocks, h.inClause⟩⟩

/-- The local type that a name stands for at a position: the last one in scope. -/
def scopedType (f : SourceFile) (name : String) (x : Nat) : Option TypeDecl :=
  f.types.reverse.find? fun d => d.scope.isSome && d.name == name && f.InScope d x

/-- A local type of this name that is in scope. -/
structure Offers (f : SourceFile) (name : String) (x : Nat) (d : TypeDecl) : Prop where
  mem : d ∈ f.types
  isLocal : d.scope.isSome
  name_eq : d.name = name
  inScope : f.InScope d x

section

variable {f : SourceFile} {d e : TypeDecl} {x y : Nat}

theorem inScope_self (f : SourceFile) (d : TypeDecl) : f.InScope d d.span.start :=
  ⟨Nat.le_refl _, fun _ _ h => h, fun _ _ hlt hle => absurd hle (Nat.not_le_of_lt hlt)⟩

/-- What is in scope somewhere is in scope all the way from its name. -/
theorem InScope.earlier (h : f.InScope d x) (hd : d.span.start ≤ y) (hy : y ≤ x) : f.InScope d y where
  behind := hd
  inBlocks b hb hcontains := by
    have hx := h.inBlocks b hb hcontains
    rw [Span.contains_iff] at hx hcontains ⊢
    omega
  inClause k hk hlt hle := h.inClause k hk hlt (Nat.le_trans hle hy)

/-- What is in scope at a declaration is in scope wherever the declared type is. -/
theorem InScope.trans (he : f.InScope e d.span.start) (hd : f.InScope d x) : f.InScope e x where
  behind := Nat.le_trans he.behind hd.behind
  inBlocks b hb hcontains := hd.inBlocks b hb (he.inBlocks b hb hcontains)
  inClause k hk hlt hle := by
    rcases Nat.lt_or_ge d.span.start k with hbehind | hbefore
    · obtain ⟨b, hb, hk, hnot⟩ := hd.inClause k hk hbehind hle
      exact ⟨b, hb, hk, fun hcontains => hnot (he.inBlocks b hb hcontains)⟩
    · exact he.inClause k hk hlt hbefore

end

/-! ## Files that are read -/

/-- Declared types one behind another, in blocks that are nested. A local type is recorded with the innermost of
the function bodies around it. -/
structure WellNested (f : SourceFile) : Prop where
  ordered : f.types.Pairwise fun d e => d.span.start < e.span.start
  nested : ∀ a ∈ f.blocks, ∀ b ∈ f.blocks, ∀ x, a.contains x → b.contains x → b.start ≤ a.start → a.Within b
  scope : ∀ d ∈ f.types, ∀ b ∈ d.scope, b ∈ f.blocks ∧ b.start < d.span.start ∧ d.span.start < b.stop
  innermost : ∀ d ∈ f.types, ∀ e ∈ f.types, ∀ b ∈ e.scope, b.contains d.span.start → ∃ c ∈ d.scope, c.Within b

theorem wellNested_parse (text : List Char) : (parse text).WellNested := by
  have h := enclosed_parse text
  have hs := Lexed.isRead_ofText text
  have hblock {b : Span} : b ∈ (parse text).blocks ↔ (Lexed.ofText text).1.IsBlock b := by
    simp only [blocks, parse, List.mem_map, List.mem_filter, List.mem_range, beq_iff_eq]
    constructor
    · rintro ⟨i, ⟨-, hi⟩, rfl⟩
      exact ⟨i, hi, rfl⟩
    · rintro ⟨i, hi, rfl⟩
      exact ⟨i, ⟨Lexed.kindAt_lt hi, hi⟩, rfl⟩
  exact {
    ordered := h.declared.ordered
    nested := fun a ha b hb x hxa hxb => (hblock.mp ha).within hs (hblock.mp hb) hxa hxb
    scope := fun d hd b hb => ⟨hblock.mpr (h.scope d hd b hb).1, (h.scope d hd b hb).2⟩
    innermost := h.innermost }

section

variable {f : SourceFile} (h : f.WellNested) {d e : TypeDecl} {b : Span} {name : String} {x : Nat}
include h

theorem WellNested.eq_of_start (hd : d ∈ f.types) (he : e ∈ f.types) (hstart : d.span.start = e.span.start) :
    d = e := by
  have hnodup : (f.types.map (·.span.start)).Nodup :=
    List.pairwise_map.mpr (h.ordered.imp fun hlt => Nat.ne_of_lt hlt)
  exact List.inj_on_of_nodup_map hnodup hd he hstart

theorem WellNested.scope_contains (hd : d ∈ f.types) (hb : b ∈ d.scope) : b.contains d.span.start := by
  obtain ⟨-, hstart, hstop⟩ := h.scope d hd b hb
  exact Span.contains_iff.mpr ⟨Nat.le_of_lt hstart, hstop⟩

theorem scopedType_eq_some : f.scopedType name x = some d ↔
    f.Offers name x d ∧ ∀ e, f.Offers name x e → e.span.start ≤ d.span.start := by
  have hoffers (d : TypeDecl) (hd : d ∈ f.types) :
      (d.scope.isSome && d.name == name && decide (f.InScope d x)) = true ↔ f.Offers name x d := by
    simp only [Bool.and_eq_true, beq_iff_eq, decide_eq_true_eq]
    exact ⟨fun ⟨⟨hlocal, hname⟩, hscope⟩ => ⟨hd, hlocal, hname, hscope⟩,
      fun h => ⟨⟨h.isLocal, h.name_eq⟩, h.inScope⟩⟩
  have hlast {c : TypeDecl} (hfound : f.scopedType name x = some c) :
      f.Offers name x c ∧ ∀ e, f.Offers name x e → e.span.start ≤ c.span.start := by
    obtain ⟨hc, before, after, htypes, hbefore⟩ := List.find?_eq_some_iff_append.mp hfound
    have hmem {e : TypeDecl} : e ∈ f.types ↔ e ∈ before ++ c :: after := by rw [← htypes, List.mem_reverse]
    refine ⟨(hoffers c (hmem.mpr (by simp))).mp hc, fun e he => ?_⟩
    rcases List.mem_append.mp (hmem.mp he.mem) with hb | ha
    · have hnot := hbefore e hb
      rw [(hoffers e he.mem).mpr he] at hnot
      cases hnot
    · have hordered := List.pairwise_reverse.mpr h.ordered
      rw [htypes] at hordered
      rcases List.mem_cons.mp ha with rfl | ha
      · exact Nat.le_refl _
      · exact Nat.le_of_lt ((List.pairwise_cons.mp (List.pairwise_append.mp hordered).2.1).1 e ha)
  constructor
  · exact hlast
  · rintro ⟨hd, hmax⟩
    cases hfound : f.scopedType name x with
    | none =>
      have hnone := List.find?_eq_none.mp hfound d (List.mem_reverse.mpr hd.mem)
      exact absurd ((hoffers d hd.mem).mpr hd) hnone
    | some c =>
      obtain ⟨hc, hmax'⟩ := hlast hfound
      rw [h.eq_of_start hc.mem hd.mem (Nat.le_antisymm (hmax c hc) (hmax' d hd))]

/-- The type that a name stands for is in the innermost block around the position: whatever else is in scope under
the name, the blocks around that one are around it as well. -/
theorem scopedType_innermost (hd : f.scopedType name x = some d) (he : f.Offers name x e) (hb : b ∈ f.blocks)
    (hcontains : b.contains e.span.start) : b.contains d.span.start := by
  obtain ⟨hd, hmax⟩ := (scopedType_eq_some h).mp hd
  have hx := he.inScope.inBlocks b hb hcontains
  have hle := hmax e he
  have hbehind := hd.inScope.behind
  rw [Span.contains_iff] at hcontains hx ⊢
  omega

/-- Behind its name a local type stands for it. -/
theorem scopedType_self (hd : d ∈ f.types) (hlocal : d.scope.isSome) :
    f.scopedType d.name d.span.start = some d :=
  (scopedType_eq_some h).mpr ⟨⟨hd, hlocal, rfl, f.inScope_self d⟩, fun _ he => he.inScope.behind⟩

end

/-! ## The type that is looked up -/

/-- The least measure of a list, at the first place that has it. -/
theorem leastIndex_eq_some {α : Type} {measure : α → Nat} {l : List (Nat × α)} {e : Nat × α}
    (h : leastIndex measure l = some e) : ∃ before after, l = before ++ e :: after ∧
      (∀ b ∈ before, measure e.2 < measure b.2) ∧ ∀ a ∈ after, measure e.2 ≤ measure a.2 := by
  induction l generalizing e with
  | nil => cases h
  | cons first rest ih =>
    obtain ⟨i, a⟩ := first
    unfold leastIndex at h
    cases hrest : leastIndex measure rest with
    | none =>
      rw [hrest] at h
      cases h
      cases rest with
      | nil => exact ⟨[], [], rfl, by simp, by simp⟩
      | cons second rest =>
        unfold leastIndex at hrest
        split at hrest
        · split at hrest <;> cases hrest
        · cases hrest
    | some best =>
      obtain ⟨before, after, rfl, hbefore, hafter⟩ := ih hrest
      rw [hrest] at h
      simp only at h
      split at h
      · next hlt =>
        cases h
        refine ⟨(i, a) :: before, after, rfl, fun b hb => ?_, hafter⟩
        rcases List.mem_cons.mp hb with rfl | hb
        · exact hlt
        · exact hbefore b hb
      · next hle =>
        cases h
        have hle := Nat.le_of_not_lt hle
        refine ⟨[], _, rfl, by simp, fun b hb => ?_⟩
        rcases List.mem_append.mp hb with hb | hb
        · exact Nat.le_trans hle (Nat.le_of_lt (hbefore b hb))
        · rcases List.mem_cons.mp hb with rfl | hb
          · exact hle
          · exact Nat.le_trans hle (hafter b hb)

theorem leastIndex_isSome {α : Type} {measure : α → Nat} {l : List (Nat × α)} (h : l ≠ []) :
    ∃ e, leastIndex measure l = some e := by
  cases l with
  | nil => exact absurd rfl h
  | cons first rest =>
    unfold leastIndex
    split
    · split <;> exact ⟨_, rfl⟩
    · exact ⟨_, rfl⟩

/-- The length of the body that a local type is declared in. -/
def bodyLength (d : TypeDecl) : Nat := (d.scope.map Span.length).getD 0

/-- A local type of this name whose body is around the position. -/
structure Reaches (f : SourceFile) (name : String) (x : Nat) (d : TypeDecl) : Prop where
  mem : d ∈ f.types
  name_eq : d.name = name
  behind : d.span.start ≤ x
  inBody : ∃ b ∈ d.scope, b.contains x

theorem Reaches.isLocal {f : SourceFile} {name : String} {x : Nat} {d : TypeDecl} (h : f.Reaches name x d) :
    d.scope.isSome := by
  obtain ⟨b, hb, -⟩ := h.inBody
  exact Option.isSome_iff_exists.mpr ⟨b, hb⟩

/-- The types among which a name is looked up, with their places. -/
def candidates (f : SourceFile) (name : String) (x : Nat) : List (Nat × TypeDecl) :=
  f.numberedTypes.filter fun (_, d) => d.name == name && isVisibleAt d x

theorem localType_eq (f : SourceFile) (name : String) (x : Nat) :
    f.localType name x = (leastIndex bodyLength (f.candidates name x)).map (·.2) := rfl

theorem numberedTypes_map (f : SourceFile) : f.numberedTypes.map (·.2) = f.types := by
  simp [numberedTypes, List.map_map, Function.comp_def]

theorem mem_candidates {f : SourceFile} {name : String} {x : Nat} {d : TypeDecl} :
    d ∈ (f.candidates name x).map (·.2) ↔ f.Reaches name x d := by
  have hbody : (d.scope.map (·.contains x)).getD false = true ↔ ∃ b ∈ d.scope, b.contains x := by
    cases d.scope <;> simp
  have hfilter : (d.name == name && isVisibleAt d x) = true ↔
      d.name = name ∧ d.span.start ≤ x ∧ ∃ b ∈ d.scope, b.contains x := by
    simp only [isVisibleAt, Bool.and_eq_true, beq_iff_eq, decide_eq_true_eq, hbody]
  constructor
  · rintro hd
    obtain ⟨e, he, rfl⟩ := List.mem_map.mp hd
    obtain ⟨hmem, hvisible⟩ := List.mem_filter.mp he
    obtain ⟨hname, hbehind, hcontains⟩ := hfilter.mp hvisible
    exact ⟨numberedTypes_map f ▸ List.mem_map_of_mem hmem, hname, hbehind, hcontains⟩
  · rintro ⟨hmem, hname, hbehind, hcontains⟩
    obtain ⟨e, he, rfl⟩ := List.mem_map.mp (numberedTypes_map f ▸ hmem)
    exact List.mem_map_of_mem (List.mem_filter.mpr ⟨he, hfilter.mpr ⟨hname, hbehind, hcontains⟩⟩)

theorem reaches_of_localType {f : SourceFile} {name : String} {x : Nat} {d : TypeDecl}
    (h : f.localType name x = some d) : f.Reaches name x d := by
  rw [localType_eq] at h
  obtain ⟨least, hleast, rfl⟩ := Option.map_eq_some_iff.mp h
  obtain ⟨before, after, hsplit, -, -⟩ := leastIndex_eq_some hleast
  exact mem_candidates.mp (List.mem_map_of_mem (hsplit ▸ List.mem_append_right before List.mem_cons_self))

/-- Wherever a local type reaches, some type is found. -/
theorem Reaches.localType_isSome {f : SourceFile} {name : String} {x : Nat} {d : TypeDecl} (h : f.Reaches name x d) :
    ∃ c, f.localType name x = some c := by
  obtain ⟨e, he, -⟩ := List.mem_map.mp (mem_candidates.mpr h)
  obtain ⟨c, hc⟩ := @leastIndex_isSome _ bodyLength _ (List.ne_nil_of_mem he)
  exact ⟨c.2, by rw [localType_eq, hc, Option.map_some]⟩

section

variable {f : SourceFile} (h : f.WellNested) {d : TypeDecl} {name : String} {x : Nat}
include h

/-- The type that is found has the shortest body, and is the first that has it. -/
theorem localType_least (hfound : f.localType name x = some d) : f.Reaches name x d ∧
    ∀ e, f.Reaches name x e →
      bodyLength d ≤ bodyLength e ∧ (e.span.start < d.span.start → bodyLength d < bodyLength e) := by
  refine ⟨reaches_of_localType hfound, ?_⟩
  rw [localType_eq] at hfound
  obtain ⟨least, hleast, rfl⟩ := Option.map_eq_some_iff.mp hfound
  obtain ⟨before, after, hsplit, hbefore, hafter⟩ := leastIndex_eq_some hleast
  have hordered : (f.candidates name x).Pairwise fun d e => d.2.span.start < e.2.span.start := by
    have htypes := h.ordered
    rw [← numberedTypes_map f, List.pairwise_map] at htypes
    exact htypes.filter _
  intro e he
  obtain ⟨e, hmem, rfl⟩ := List.mem_map.mp (mem_candidates.mpr he)
  rw [hsplit] at hmem hordered
  rcases List.mem_append.mp hmem with hb | ha
  · have hlt := hbefore e hb
    exact ⟨Nat.le_of_lt hlt, fun _ => hlt⟩
  · rcases List.mem_cons.mp ha with rfl | ha
    · exact ⟨Nat.le_refl _, fun hlt => absurd hlt (Nat.lt_irrefl _)⟩
    · have hlt := (List.pairwise_cons.mp (List.pairwise_append.mp hordered).2.1).1 e ha
      exact ⟨hafter e ha, fun hgt => absurd hlt (Nat.not_lt_of_gt hgt)⟩

theorem localType_eq_some : f.localType name x = some d ↔ f.Reaches name x d ∧
    ∀ e, f.Reaches name x e →
      bodyLength d ≤ bodyLength e ∧ (e.span.start < d.span.start → bodyLength d < bodyLength e) := by
  constructor
  · exact localType_least h
  · rintro ⟨hd, hmin⟩
    obtain ⟨c, hfound⟩ := hd.localType_isSome
    obtain ⟨hc, hmin'⟩ := localType_least h hfound
    have hdc := hmin c hc
    have hcd := hmin' d hd
    rw [hfound, h.eq_of_start hc.mem hd.mem (by omega)]

end

/-! ## When the two agree -/

/-- Local types stand directly in the bodies of functions, and those of one body have names of their own. -/
structure PlainBodies (f : SourceFile) : Prop where
  direct : ∀ d ∈ f.types, ∀ b ∈ d.scope, ∀ x, d.span.start ≤ x → x < b.stop → f.InScope d x
  unique : ∀ d ∈ f.types, ∀ e ∈ f.types, d.scope.isSome → e.scope = d.scope → e.name = d.name → e = d

section

variable {f : SourceFile} (h : f.WellNested) {d e : TypeDecl} {name : String} {x : Nat}
include h

/-- A body of the same length around a local type is its own body. -/
theorem WellNested.scope_eq (hd : d ∈ f.types) (he : e ∈ f.types) {b : Span} (hb : b ∈ e.scope)
    (hcontains : b.contains d.span.start) (hlength : bodyLength e ≤ bodyLength d) : e.scope = d.scope := by
  obtain ⟨c, hc, hstart, hstop⟩ := h.innermost d hd e he b hb hcontains
  obtain ⟨-, hc₁, hc₂⟩ := h.scope d hd c hc
  rw [Option.mem_def] at hb hc
  simp only [bodyLength, hb, hc, Option.map_some, Option.getD_some, Span.length] at hlength
  obtain ⟨b₁, b₂⟩ := b
  obtain ⟨c₁, c₂⟩ := c
  simp only at hstart hstop hc₁ hc₂ hlength
  obtain rfl : b₁ = c₁ := by omega
  obtain rfl : b₂ = c₂ := by omega
  rw [hb, hc]

/-- In plain bodies a local type is in scope wherever it is looked for. -/
theorem PlainBodies.offers_iff (hplain : f.PlainBodies) : f.Offers name x d ↔ f.Reaches name x d := by
  constructor
  · intro hd
    obtain ⟨b, hb⟩ := Option.isSome_iff_exists.mp hd.isLocal
    exact ⟨hd.mem, hd.name_eq, hd.inScope.behind, b, hb,
      hd.inScope.inBlocks b (h.scope d hd.mem b hb).1 (h.scope_contains hd.mem hb)⟩
  · intro hd
    obtain ⟨b, hb, hcontains⟩ := hd.inBody
    exact ⟨hd.mem, hd.isLocal, hd.name_eq,
      hplain.direct d hd.mem b hb x hd.behind (Span.contains_iff.mp hcontains).2⟩

/-- In plain bodies a type that is declared later has a shorter body. -/
theorem PlainBodies.bodyLength_lt (hplain : f.PlainBodies) (hd : f.Reaches name x d) (he : f.Reaches name x e)
    (hlt : d.span.start < e.span.start) : bodyLength e < bodyLength d := by
  obtain ⟨b, hb, hcontains⟩ := hd.inBody
  have haround : b.contains e.span.start := by
    have hstart := (h.scope d hd.mem b hb).2.1
    have hbehind := he.behind
    rw [Span.contains_iff] at hcontains ⊢
    omega
  rcases Nat.lt_or_ge (bodyLength e) (bodyLength d) with hshorter | hle
  · exact hshorter
  · have hscope := h.scope_eq he.mem hd.mem hb haround hle
    have hsame := hplain.unique d hd.mem e he.mem hd.isLocal hscope.symm (he.name_eq.trans hd.name_eq.symm)
    rw [hsame] at hlt
    exact absurd hlt (Nat.lt_irrefl _)

theorem PlainBodies.localType_eq (hplain : f.PlainBodies) : f.localType name x = f.scopedType name x := by
  refine Option.ext fun d => ?_
  rw [localType_eq_some h, scopedType_eq_some h, hplain.offers_iff h]
  refine and_congr_right fun hd => forall_congr' fun e => ?_
  rw [hplain.offers_iff h]
  refine forall_congr' fun he => ?_
  constructor
  · rintro ⟨hle, -⟩
    rcases Nat.lt_or_ge d.span.start e.span.start with hlt | hge
    · exact absurd hle (Nat.not_le_of_lt (hplain.bodyLength_lt h hd he hlt))
    · exact hge
  · intro hle
    rcases Nat.lt_or_eq_of_le hle with hlt | heq
    · have hshorter := hplain.bodyLength_lt h he hd hlt
      exact ⟨Nat.le_of_lt hshorter, fun _ => hshorter⟩
    · rw [h.eq_of_start he.mem hd.mem heq]
      exact ⟨Nat.le_refl _, fun hlt => absurd hlt (Nat.lt_irrefl _)⟩

section

variable (hagree : ∀ name x, f.localType name x = f.scopedType name x)
include hagree

/-- Of two types of one name in one body the first is found behind the second as well. -/
theorem unique_of_agree (hd : d ∈ f.types) (he : e ∈ f.types) (hlocal : d.scope.isSome) (hscope : e.scope = d.scope)
    (hname : e.name = d.name) : ¬ d.span.start < e.span.start := by
  intro hlt
  obtain ⟨b, hb⟩ := Option.isSome_iff_exists.mp hlocal
  have hfound := scopedType_self h he (hscope ▸ hlocal)
  rw [← hagree] at hfound
  have hreaches : f.Reaches e.name e.span.start d :=
    ⟨hd, hname.symm, Nat.le_of_lt hlt, b, hb, h.scope_contains he (hscope ▸ hb)⟩
  have hshorter := ((localType_least h hfound).2 d hreaches).2 hlt
  rw [bodyLength, bodyLength, hscope] at hshorter
  exact absurd hshorter (Nat.lt_irrefl _)

/-- Where a type is looked for within its body, something is found that is in scope; unless it is the type itself,
there is a block around both the position and that type which leaves out the one that is looked for. -/
theorem inScope_of_agree (hunique : ∀ d ∈ f.types, ∀ e ∈ f.types, d.scope.isSome → e.scope = d.scope →
    e.name = d.name → e = d) (hd : f.Reaches name x d)
    (haround : ∀ e, f.Offers name x e → ∀ b ∈ f.blocks, b.start < e.span.start → b.contains x →
      b.contains d.span.start) : f.InScope d x := by
  obtain ⟨c, hfound⟩ := hd.localType_isSome
  obtain ⟨hc, hmin⟩ := localType_least h hfound
  rw [hagree] at hfound
  have hoffers := ((scopedType_eq_some h).mp hfound).1
  obtain ⟨b, hb, hcontains⟩ := hc.inBody
  obtain ⟨hblock, hbefore, -⟩ := h.scope c hc.mem b hb
  have hscope := h.scope_eq hd.mem hc.mem hb (haround c hoffers b hblock hbefore hcontains) (hmin d hd).1
  rw [← hunique d hd.mem c hc.mem hd.isLocal hscope (hc.name_eq.trans hd.name_eq.symm)]
  exact hoffers.inScope

theorem PlainBodies.of_agree : f.PlainBodies := by
  have hunique : ∀ d ∈ f.types, ∀ e ∈ f.types, d.scope.isSome → e.scope = d.scope → e.name = d.name → e = d := by
    intro d hd e he hlocal hscope hname
    have hde := unique_of_agree h hagree hd he hlocal hscope hname
    have hed := unique_of_agree h hagree he hd (hscope ▸ hlocal) hscope.symm hname.symm
    exact h.eq_of_start he hd (by omega)
  refine ⟨fun d hd b hb x hbehind hx => ?_, hunique⟩
  obtain ⟨-, hstart, -⟩ := h.scope d hd b hb
  have hreaches (y : Nat) (hy : d.span.start ≤ y) (hyx : y ≤ x) : f.Reaches d.name y d :=
    ⟨hd, rfl, hy, b, hb, Span.contains_iff.mpr ⟨by omega, by omega⟩⟩
  refine ⟨hbehind, fun a ha hdecl => ?_, fun k hk hlt hle => ?_⟩
  · -- the type would still be found right behind the block
    obtain ⟨ha₁, ha₂⟩ := Span.contains_iff.mp hdecl
    rcases Nat.lt_or_ge x a.stop with hx | hx
    · exact Span.contains_iff.mpr ⟨by omega, hx⟩
    · have hbefore (e : TypeDecl) (he : f.Offers d.name a.stop e) (c : Span) (hc : c ∈ f.blocks)
          (hce : c.start < e.span.start) (hcontains : c.contains a.stop) : c.contains d.span.start := by
        have hstop := (Span.contains_iff.mp hcontains).2
        have hleft : ¬ (a.start ≤ e.span.start ∧ e.span.start < a.stop) := fun hin => by
          have hcontains := (Span.contains_iff.mp (he.inScope.inBlocks a ha (Span.contains_iff.mpr hin))).2
          exact absurd hcontains (Nat.lt_irrefl _)
        have hbehind := he.inScope.behind
        have hle : c.start ≤ a.start := by
          rcases Nat.lt_or_ge a.start c.start with hlt | hle
          · have hin : c.start < a.stop := by omega
            have hwithin := (h.nested c hc a ha c.start (Span.contains_iff.mpr ⟨Nat.le_refl _, by omega⟩)
              (Span.contains_iff.mpr ⟨Nat.le_of_lt hlt, hin⟩) (Nat.le_of_lt hlt)).2
            omega
          · exact hle
        exact Span.contains_iff.mpr ⟨by omega, by omega⟩
      have hin := inScope_of_agree h hagree hunique (hreaches a.stop (Nat.le_of_lt ha₂) hx) hbefore
      have hcontains := (Span.contains_iff.mp (hin.inBlocks a ha hdecl)).2
      exact absurd hcontains (Nat.lt_irrefl _)
  · -- the type would still be found where the next clause begins
    rcases Decidable.em (∃ c ∈ f.blocks, c.contains k ∧ ¬ c.contains d.span.start) with hfresh | hsame
    · exact hfresh
    · refine (inScope_of_agree h hagree hunique (hreaches k (Nat.le_of_lt hlt) hle) ?_).inClause k hk hlt (Nat.le_refl k)
      intro e he c hc _ hcontains
      by_contra hnot
      exact hsame ⟨c, hc, hcontains, hnot⟩

end

/-- The type that is looked up is everywhere the one in scope just when local types stand directly in the bodies of
functions, those of one body under names of their own. -/
theorem localType_eq_scopedType_iff :
    (∀ name x, f.localType name x = f.scopedType name x) ↔ f.PlainBodies :=
  ⟨PlainBodies.of_agree h, fun hplain _ _ => hplain.localType_eq h⟩

/-! ## Names inside a declaration -/

/-- A name stands for the same at a declaration as wherever the declared type is in scope, unless it is declared
anew in between. -/
theorem scopedType_at_declaration_iff : (∀ x, f.scopedType d.name x = some d →
      f.scopedType name x = f.scopedType name d.span.start) ↔
    ∀ e ∈ f.types, e.scope.isSome → e.name = name → d.span.start < e.span.start →
      f.scopedType d.name e.span.start ≠ some d := by
  constructor
  · rintro hsame e he hlocal rfl hlt hfound
    have hlater := hsame e.span.start hfound
    rw [scopedType_self h he hlocal] at hlater
    have hbehind := ((scopedType_eq_some h).mp hlater.symm).1.inScope.behind
    exact absurd hlt (Nat.not_lt_of_le hbehind)
  · intro hfresh x hfound
    obtain ⟨hd, hmax⟩ := (scopedType_eq_some h).mp hfound
    have hbefore (e : TypeDecl) (he : f.Offers name x e) : e.span.start ≤ d.span.start := by
      rcases Nat.lt_or_ge d.span.start e.span.start with hlt | hge
      · refine absurd ((scopedType_eq_some h).mpr ⟨⟨hd.mem, hd.isLocal, rfl, ?_⟩, fun g hg => ?_⟩)
          (hfresh e he.mem he.isLocal he.name_eq hlt)
        · exact hd.inScope.earlier (Nat.le_of_lt hlt) he.inScope.behind
        · exact hmax g ⟨hg.mem, hg.isLocal, hg.name_eq, hg.inScope.trans he.inScope⟩
      · exact hge
    have hoffers (e : TypeDecl) : f.Offers name x e ↔ f.Offers name d.span.start e := by
      constructor
      · intro he
        exact ⟨he.mem, he.isLocal, he.name_eq, he.inScope.earlier (hbefore e he) hd.inScope.behind⟩
      · intro he
        exact ⟨he.mem, he.isLocal, he.name_eq, he.inScope.trans hd.inScope⟩
    refine Option.ext fun c => ?_
    rw [scopedType_eq_some h, scopedType_eq_some h]
    simp only [hoffers]

end

end SourceFile

end LiteralFill
