import LiteralFill.Proofs.Fill.Agreement
import LiteralFill.Proofs.Fill.Cancellation
import LiteralFill.Proofs.Fill.Edits
import Mathlib.Data.List.MinMax

/-!
Which literals of a line are filled. Of the literals of the line whose types are names or struct types the outermost are
looked at, and those of them are filled whose types turn out to be structs. These are the outermost struct literals of
the line unless one of them lies in a literal of another named type.
-/

namespace LiteralFill

open Resolution (give stop Grows)

/-! ## Spans inside one another -/

theorem Span.eq_of_ends {a b : Span} (hstart : a.start = b.start) (hstop : a.stop = b.stop) : a = b := by
  cases a
  cases b
  simp_all

theorem isStrictlyInside_iff {inner outer : Span} : isStrictlyInside inner outer = true ↔
    (outer.start ≤ inner.start ∧ inner.stop ≤ outer.stop) ∧ outer ≠ inner := by
  simp only [isStrictlyInside, Bool.and_eq_true, decide_eq_true_eq, bne_iff_ne]

theorem isStrictlyInside_trans {a b c : Span} (hab : isStrictlyInside a b = true) (hbc : isStrictlyInside b c = true) :
    isStrictlyInside a c = true := by
  rw [isStrictlyInside_iff] at *
  refine ⟨by omega, ?_⟩
  rintro rfl
  exact hab.2 (Span.eq_of_ends (by omega) (by omega))

theorem mem_outermost {literals : List CompositeLiteral} {l : CompositeLiteral} : l ∈ outermost literals ↔
    l ∈ literals ∧ ∀ m ∈ literals, isStrictlyInside l.span m.span = false := by
  simp [outermost]

/-- A literal of a list is an outermost one, or lies in one. -/
theorem exists_outermost {literals : List CompositeLiteral} {l : CompositeLiteral} (hl : l ∈ literals) :
    ∃ m ∈ outermost literals, l.span = m.span ∨ isStrictlyInside l.span m.span = true := by
  let around := literals.filter fun m => l.span == m.span || isStrictlyInside l.span m.span
  let extent (m : CompositeLiteral) : Nat := m.span.stop + (l.span.start - m.span.start)
  have hself : l ∈ around := List.mem_filter.mpr ⟨hl, by simp⟩
  obtain ⟨m, hm⟩ : ∃ m, m ∈ around.argmax extent := by
    cases hargmax : around.argmax extent with
    | some m => exact ⟨m, rfl⟩
    | none =>
      rw [List.argmax_eq_none.mp hargmax] at hself
      cases hself
  obtain ⟨hliteral, haround⟩ := List.mem_filter.mp (List.argmax_mem hm)
  rw [Bool.or_eq_true, beq_iff_eq] at haround
  refine ⟨m, mem_outermost.mpr ⟨hliteral, fun o ho => ?_⟩, haround⟩
  -- what lies around the widest one is wider still
  by_contra hinside
  rw [Bool.not_eq_false] at hinside
  have hwider : o ∈ around := by
    refine List.mem_filter.mpr ⟨ho, ?_⟩
    rw [Bool.or_eq_true, beq_iff_eq]
    rcases haround with hsame | hin
    · exact .inr (hsame ▸ hinside)
    · exact .inr (isStrictlyInside_trans hin hinside)
  have hle := List.le_of_mem_argmax hwider hm
  have hbounds : m.span.start ≤ l.span.start := by
    rcases haround with hsame | hin
    · exact (congrArg Span.start hsame).ge
    · exact (isStrictlyInside_iff.mp hin).1.1
  obtain ⟨⟨hstart, hstop⟩, hne⟩ := isStrictlyInside_iff.mp hinside
  exact hne (Span.eq_of_ends (by simp only [extent] at hle; omega) (by simp only [extent] at hle; omega))

namespace SourceFile

variable {text : List Char}

/-- Literals of a file are known by their braces. -/
theorem map_braceSpan_inj {ls ms : List CompositeLiteral} (hls : ∀ l ∈ ls, l ∈ (parse text).literals)
    (hms : ∀ m ∈ ms, m ∈ (parse text).literals) :
    ls.map (·.braceSpan) = ms.map (·.braceSpan) ↔ ls = ms := by
  refine ⟨fun h => ?_, congrArg _⟩
  induction ls generalizing ms with
  | nil => exact (List.map_eq_nil_iff.mp h.symm).symm
  | cons l ls ih =>
    cases ms with
    | nil => cases h
    | cons m ms =>
      obtain ⟨hhead, hrest⟩ := List.cons.inj h
      rw [eq_of_braceSpan (hls l List.mem_cons_self) (hms m List.mem_cons_self) hhead,
        ih (fun l hl => hls l (List.mem_cons_of_mem _ hl)) (fun m hm => hms m (List.mem_cons_of_mem _ hm)) hrest]

theorem isStrictlyInside_of_encloses {l m : CompositeLiteral} (hl : l ∈ (parse text).literals)
    (hm : m ∈ (parse text).literals) (h : l.Encloses m) : isStrictlyInside m.span l.span = true := by
  obtain ⟨hl₁, hl₂⟩ := start_lt_lbrace hl
  have hlength := h.length_lt ⟨hl₁, hl₂⟩ (start_lt_lbrace hm)
  have hne : l.span ≠ m.span := fun hsame => by
    rw [hsame] at hlength
    exact Nat.lt_irrefl _ hlength
  exact isStrictlyInside_iff.mpr ⟨⟨Nat.le_of_lt (Nat.lt_trans hl₁ h.1), Nat.le_succ_of_le h.2⟩, hne⟩

/-- Of two literals of a file around a third one is inside the other. -/
theorem inside_or_inside {l m o : CompositeLiteral} (hl : l ∈ (parse text).literals) (hm : m ∈ (parse text).literals)
    (ho : o ∈ (parse text).literals) (hlm : l.span = m.span ∨ isStrictlyInside l.span m.span = true)
    (hlo : isStrictlyInside l.span o.span = true) :
    m = o ∨ isStrictlyInside m.span o.span = true ∨ isStrictlyInside o.span m.span = true := by
  by_cases hne : m = o
  · exact .inl hne
  have hsymm : Std.Symm fun l m : CompositeLiteral => l.Apart m ∨ l.Encloses m ∨ m.Encloses l :=
    ⟨fun _ _ h => h.imp Or.symm Or.symm⟩
  have hforest : m.Apart o ∨ m.Encloses o ∨ o.Encloses m := (literals_nested text).forall hm ho hne
  rcases hforest with hapart | hmo | hom
  · -- the third one is not empty
    obtain ⟨hl₁, hl₂⟩ := start_lt_lbrace hl
    have hm' : m.span.start ≤ l.span.start ∧ l.span.stop ≤ m.span.stop := by
      rcases hlm with hsame | hin
      · rw [hsame]
        exact ⟨Nat.le_refl _, Nat.le_refl _⟩
      · exact (isStrictlyInside_iff.mp hin).1
    have ho' := (isStrictlyInside_iff.mp hlo).1
    simp only [CompositeLiteral.Apart, CompositeLiteral.span] at *
    omega
  · exact .inr (.inr (isStrictlyInside_of_encloses hm ho hmo))
  · exact .inr (.inl (isStrictlyInside_of_encloses ho hm hom))

/-- The outermost literals that have a property are the outermost ones of those that have it, unless one of those lies
in an outermost literal that does not have it. -/
theorem filter_outermost_eq_iff {literals : List CompositeLiteral} (hsub : ∀ l ∈ literals, l ∈ (parse text).literals)
    (P : CompositeLiteral → Bool) : (outermost literals).filter P = outermost (literals.filter P) ↔
      ∀ o ∈ outermost literals, P o = false →
        ∀ l ∈ literals, isStrictlyInside l.span o.span = true → P l = false := by
  constructor
  · intro heq o ho hnot l hl hlo
    by_contra hP
    rw [Bool.not_eq_false] at hP
    obtain ⟨m, hm, hlm⟩ := exists_outermost (List.mem_filter.mpr ⟨hl, hP⟩)
    rw [← heq] at hm
    obtain ⟨hm, hPm⟩ := List.mem_filter.mp hm
    obtain ⟨ho', houter⟩ := mem_outermost.mp ho
    obtain ⟨hm', houter'⟩ := mem_outermost.mp hm
    rcases inside_or_inside (hsub l hl) (hsub m hm') (hsub o ho') hlm hlo with rfl | hmo | hom
    · rw [hnot] at hPm
      cases hPm
    · rw [houter' o ho'] at hmo
      cases hmo
    · rw [houter m hm'] at hom
      cases hom
  · intro hfree
    unfold outermost
    rw [List.filter_filter, List.filter_filter]
    refine List.filter_congr fun l hl => ?_
    cases hP : P l with
    | false => simp
    | true =>
      simp only [Bool.true_and, Bool.and_true]
      refine congrArg (!·) (Bool.eq_iff_iff.mpr ?_)
      simp only [List.any_eq_true, List.mem_filter]
      refine ⟨fun ⟨m, hm, hlm⟩ => ?_, fun ⟨m, ⟨hm, _⟩, hlm⟩ => ⟨m, hm, hlm⟩⟩
      obtain ⟨o, ho, hmo⟩ := exists_outermost hm
      have hlo : isStrictlyInside l.span o.span = true := by
        rcases hmo with hsame | hin
        · exact hsame ▸ hlm
        · exact isStrictlyInside_trans hlm hin
      refine ⟨o, ⟨(mem_outermost.mp ho).1, ?_⟩, hlo⟩
      by_contra hnot
      have hfalse := hfree o ho (by simpa using hnot) l hl hlo
      rw [hP] at hfalse
      cases hfalse

/-- The literals of a file whose types start on a line, counted from one. -/
def literalsFrom (f : SourceFile) (line : Nat) : List CompositeLiteral :=
  f.literals.filter fun l => lineOf f.text l.typeSpan.start + 1 == line

theorem literalsOnLine_eq (f : SourceFile) (line : Nat) :
    literalsOnLine f line = outermost ((f.literalsFrom line).filter (·.type.mayBeStruct)) := by
  unfold literalsOnLine structLiterals literalsFrom
  rw [List.filter_filter, List.filter_filter]
  split
  · next hzero =>
    subst hzero
    simp [outermost]
  · simp only [Bool.and_comm]

end SourceFile

/-! ## Types that turn out to be structs -/

section

variable (tree : FileTree) (r : FillRequest)

/-- The type of a literal turns out to be a struct. -/
def isStructIn (s : Session) (l : CompositeLiteral) : Bool :=
  (resolveStruct tree ⟨r.file, r.path, r.packagePath, l.lbrace⟩ l.type s).1.isOk

variable {tree r}

/-- What a type stands for depends on what is remembered only. -/
theorem settled_resolveStruct {w : PackageDb} (scope : Scope) (type : TypeExpr) :
    Settled w (resolveStruct tree scope type) := by
  rw [resolveStruct_eq]
  refine .bind (settled_packageBeside tree scope) (fun _ => .bind (grows_resolveWithin ..) fun _ => grows_structOf ..)
    fun package => .bind (settled_resolveWithin ..) (fun _ => grows_structOf ..) fun t => ?_
  unfold structOf
  split
  · exact .give _
  · exact ⟨fun _ => .stop _⟩

/-- A type that turned out to be a struct, or not to be one, is found to be so later as well. -/
theorem isStructIn_later (s s' : Session) (l : CompositeLiteral)
    (hresult : (resolveStruct tree ⟨r.file, r.path, r.packagePath, l.lbrace⟩ l.type s).1 ≠ .error .cancelled)
    (hgrows : (resolveStruct tree ⟨r.file, r.path, r.packagePath, l.lbrace⟩ l.type s).2.packages.GrowsTo s'.packages) :
    isStructIn tree r s'.calm l = isStructIn tree r s l := by
  let scope : Scope := ⟨r.file, r.path, r.packagePath, l.lbrace⟩
  let memory := (resolveStruct tree scope l.type s'.calm).2.packages
  have hcalm : (resolveStruct tree scope l.type s'.calm).1 ≠ .error .cancelled := by
    obtain ⟨read, hread⟩ := (isCancellable_resolveStruct tree scope l.type).heeded s'.calm
    obtain ⟨rfl, -⟩ : read = [] ∧ _ := List.append_eq_nil_iff.mp hread.cancel.symm
    exact fun h => absurd (hread.ends.mp h) List.not_mem_nil
  have hmemory : s'.packages.GrowsTo memory := ((grows_resolveStruct tree scope l.type).step s'.calm).packages
  have hsettled : Settled memory (resolveStruct tree scope l.type) := settled_resolveStruct scope l.type
  have hends := hsettled.lockstep Bool (fun i => cond i s'.calm s) trivial
  unfold isStructIn
  cases hends with
  | lost hlost =>
    obtain ⟨i, hi⟩ := hlost
    cases i with
    | false => exact absurd (hgrows.trans hmemory) hi
    | true => exact absurd (.refl _) hi
  | @excused i e he herror =>
    obtain rfl : e = .cancelled := he
    cases i with
    | false => exact absurd herror hresult
    | true => exact absurd herror hcalm
  | stopped _ _ hstop =>
    have htrue := hstop true
    have hfalse := hstop false
    simp only [cond_true, cond_false, scope] at htrue hfalse
    rw [htrue, hfalse]
  | answered _ _ _ hanswer =>
    have htrue := hanswer true
    have hfalse := hanswer false
    simp only [cond_true, cond_false, scope] at htrue hfalse
    rw [htrue, hfalse]
    rfl

/-- A struct stands before a literal as a name or as a struct type. -/
theorem mayBeStruct_of_resolveForm {inner : Inner} {env : Env} {type : TypeExpr} {mode : Mode} {s s' : Session} {t : Ty}
    (h : resolveForm tree inner env type mode s = (.ok t, s')) (ht : t.structFields ≠ none) :
    type.mayBeStruct = true := by
  have hgiven {α : Type} {run : Resolution α} {form : α → Ty} (hform : ∀ a, (form a).structFields = none)
      (hrun : (run >>= fun a => give (form a)) s = (.ok t, s')) : False := by
    obtain ⟨a, s₁, -, hlast⟩ := Resolution.bind_ok hrun
    cases hlast
    exact ht (hform a)
  cases type with
  | name _ _ _ => rfl
  | struct _ => rfl
  | pointer _ => exact (hgiven (fun _ => rfl) h).elim
  | slice _ => exact (hgiven (fun _ => rfl) h).elim
  | array _ _ => exact (hgiven (fun _ => rfl) h).elim
  | chan _ _ => exact (hgiven (fun _ => rfl) h).elim
  | map k v =>
    obtain ⟨key, s₁, -, hrest⟩ := Resolution.bind_ok h
    obtain ⟨value, s₂, -, hlast⟩ := Resolution.bind_ok hrest
    cases hlast
    exact absurd rfl ht
  | func _ =>
    cases h
    exact absurd rfl ht
  | interface _ =>
    cases h
    exact absurd rfl ht

theorem mayBeStruct_of_isStructIn {s : Session} {l : CompositeLiteral} (h : isStructIn tree r s l = true) :
    l.type.mayBeStruct = true := by
  unfold isStructIn at h
  cases hrun : resolveStruct tree ⟨r.file, r.path, r.packagePath, l.lbrace⟩ l.type s with
  | mk result s' =>
    rw [hrun] at h
    cases result with
    | error e => cases h
    | ok resolved =>
      rw [resolveStruct_eq] at hrun
      obtain ⟨package, s₁, -, hrest⟩ := Resolution.bind_ok hrun
      obtain ⟨t, s₂, hwithin, hstruct⟩ := Resolution.bind_ok hrest
      have ht : t.structFields ≠ none := by
        intro hnone
        simp only [structOf, ResolvedStruct.ofType?, hnone, Option.map_none] at hstruct
        cases hstruct
      generalize nestingBound tree r.file = depth at hwithin
      cases depth with
      | zero => cases hwithin
      | succ depth => exact mayBeStruct_of_resolveForm hwithin ht

/-! ## Literals that are filled -/

variable {options : FillOptions} {s s₁ s' : Session}

/-- What becomes of a literal tells whether its type turned out to be a struct. -/
theorem fillLiteral_isStruct {l : CompositeLiteral} {outcome : LiteralOutcome}
    (h : fillLiteral (resolveStruct tree) r options l s = (outcome, s₁)) (hgrows : s₁.packages.GrowsTo s'.packages) :
    (∀ edit paths, outcome = .edited edit paths → isStructIn tree r s'.calm l = true) ∧
      (outcome = .leftAlone → isStructIn tree r s'.calm l = false) := by
  rw [fillLiteral_eq] at h
  cases hup : s.poll.1 with
  | true =>
    rw [hup] at h
    cases h
    simp
  | false =>
    rw [hup, fillPolled] at h
    cases hresolved : resolveStruct tree ⟨r.file, r.path, r.packagePath, l.lbrace⟩ l.type s.poll.2 with
    | mk result s₂ =>
      have hlater := @isStructIn_later tree r s.poll.2 s' l
      unfold isStructIn at hlater
      rw [hresolved] at h hlater
      cases result with
      | ok resolved =>
        have hpackages := fillResolved_packages r options l resolved s₂
        rw [fillFound] at h
        rw [h] at hpackages
        have hstruct : isStructIn tree r s'.calm l = true := hlater (by simp) (hpackages ▸ hgrows)
        refine ⟨fun _ _ _ => hstruct, ?_⟩
        rintro rfl
        rw [fillResolved_eq] at h
        generalize (merge r.file l resolved (options.synthesizer r) s₂).1 = merged at h
        rcases merged with _ | _ | _ <;> cases h
      | error e =>
        cases h
        refine ⟨fun edit paths hedited => ?_, fun hleft => hlater ?_ hgrows⟩
        · cases e <;> simp [onResolveError] at hedited
          split at hedited <;> cases hedited
        · rintro ⟨⟩
          cases hleft

/-- The edits of literals take the place of the braces of those whose types turned out to be structs. -/
theorem fillLiterals_isStruct {literals : List CompositeLiteral} {edits : List TextEdit} {paths : PathSet}
    (h : fillLiterals (resolveStruct tree) r options literals s = (.edited edits paths, s₁))
    (hgrows : s₁.packages.GrowsTo s'.packages) :
    edits.map (·.span) = (literals.filter (isStructIn tree r s'.calm)).map (·.braceSpan) := by
  induction literals generalizing s edits paths with
  | nil =>
    cases h
    rfl
  | cons l rest ih =>
    have hresolve := grows_resolveStruct tree
    rw [fillLiterals_cons] at h
    cases hliteral : fillLiteral (resolveStruct tree) r options l s with
    | mk outcome s₂ =>
      rw [hliteral] at h
      have hrest : s₂.packages.GrowsTo s'.packages := by
        have hmore := fillRest_packages hresolve r options rest outcome s₂
        rw [h] at hmore
        exact hmore.trans hgrows
      obtain ⟨hedited, hleft⟩ := fillLiteral_isStruct hliteral hrest
      cases outcome with
      | stopped outcome => cases h
      | leftAlone =>
        rw [List.filter_cons_of_neg (by simp [hleft rfl])]
        exact ih h
      | edited edit found =>
        have hspan : edit.span = l.braceSpan := fillLiteral_fitsIn hliteral
        cases hmore : fillLiterals (resolveStruct tree) r options rest s₂ with
        | mk more s₃ =>
          rw [fillRest, hmore] at h
          cases more with
          | stopped outcome => cases h
          | edited edits more =>
            cases h
            rw [List.filter_cons_of_pos (hedited _ _ rfl), List.map_cons, List.map_cons, hspan, ih hmore]

end

/-- On a line the literals are filled whose types turned out to be structs, of those that lie in no other literal of the
line with a named type or a struct type. These are the outermost of the literals of the line with struct types if and
only if none of those lies in one of the former whose type turned out to be no struct. -/
theorem fill_line {tree : FileTree} {text : List Char} {path : Option Path} {packagePath : String} {line : Nat}
    {options : FillOptions} {s s' : Session} {output : FillOutput}
    (h : fill (resolveStruct tree) ⟨.parse text, path, packagePath, .line line⟩ options s = (.filled output, s')) :
    let isStruct := isStructIn tree ⟨.parse text, path, packagePath, .line line⟩ s'.calm
    let literals := (SourceFile.parse text).literalsFrom line
    let tried := outermost (literals.filter (·.type.mayBeStruct))
    output.edits.map (·.span) = (tried.filter isStruct).map (·.braceSpan) ∧
      (output.edits.map (·.span) = (outermost (literals.filter isStruct)).map (·.braceSpan) ↔
        ∀ o ∈ tried, isStruct o = false →
          ∀ l ∈ literals, isStrictlyInside l.span o.span = true → isStruct l = false) := by
  intro isStruct literals tried
  obtain ⟨found, edits, paths, s₁, hlocate, hliterals, hne, rfl, rfl⟩ := fill_eq_filled h
  have htried : found = tried := by
    unfold locate at hlocate
    dsimp only at hlocate
    split at hlocate
    · cases hlocate
    · exact (Except.ok.inj hlocate).symm.trans (SourceFile.literalsOnLine_eq _ _)
  obtain ⟨-, hapart⟩ := SourceFile.locate_apart hlocate
  have hordered : edits.Pairwise fun a b => a.span.Precedes b.span :=
    List.pairwise_map.mp ((List.pairwise_map.mpr hapart).sublist (fillLiterals_spans hliterals))
  have hsorted : sortEdits edits = edits :=
    List.mergeSort_of_pairwise (hordered.imp fun hab => decide_eq_true (Nat.le_of_lt hab.1))
  have hmemory : s₁.packages.GrowsTo (((SourceFile.parse text).missingImports packagePath paths).foldl
      Session.forward s₁).packages := by
    rw [Session.foldl_forward_packages]
    exact .refl _
  have hspans : edits.map (·.span) = (tried.filter isStruct).map (·.braceSpan) := by
    rw [← htried]
    exact fillLiterals_isStruct hliterals hmemory
  have hmem : ∀ l ∈ literals, l ∈ (SourceFile.parse text).literals := fun l hl => (List.mem_filter.mp hl).1
  have hcandidates : ∀ l ∈ literals.filter (·.type.mayBeStruct), l ∈ (SourceFile.parse text).literals :=
    fun l hl => hmem l (List.mem_filter.mp hl).1
  have hstructs : literals.filter isStruct = (literals.filter (·.type.mayBeStruct)).filter isStruct := by
    rw [List.filter_filter]
    refine List.filter_congr fun l _ => ?_
    cases hl : isStruct l with
    | false => rfl
    | true => rw [mayBeStruct_of_isStructIn hl]; rfl
  refine ⟨hsorted.symm ▸ hspans, ?_⟩
  have hfilled : ∀ l ∈ tried.filter isStruct, l ∈ (SourceFile.parse text).literals := fun l hl =>
    hcandidates l (mem_outermost.mp (List.mem_filter.mp hl).1).1
  have houter : ∀ l ∈ outermost ((literals.filter (·.type.mayBeStruct)).filter isStruct),
      l ∈ (SourceFile.parse text).literals := fun l hl =>
    hcandidates l (List.mem_filter.mp (mem_outermost.mp hl).1).1
  rw [hsorted, hspans, hstructs, SourceFile.map_braceSpan_inj hfilled houter,
    SourceFile.filter_outermost_eq_iff hcandidates]
  refine forall₄_congr fun o _ _ l => ⟨fun hfree hl hlo => ?_, fun hfree hl => hfree (List.mem_filter.mp hl).1⟩
  cases hmay : l.type.mayBeStruct with
  | true => exact hfree (List.mem_filter.mpr ⟨hl, hmay⟩) hlo
  | false =>
    by_contra hstruct
    rw [mayBeStruct_of_isStructIn (by simpa using hstruct)] at hmay
    cases hmay

/-- A file with struct literals in a literal of a slice type with a name and behind it. -/
def hiddenText : List Char :=
  "package p\ntype T struct\x7b A int \x7d\ntype L []T\nvar x, y = L\x7bT\x7b\x7d\x7d, T\x7b\x7d\n".toList

/-- The request for the line of these literals. -/
def hiddenRequest : FillRequest := ⟨.parse hiddenText, none, "p", .line 4⟩

/-- The struct literal in the slice literal is not filled, though it lies in no other struct literal. -/
theorem fill_line_hidden :
    let run := fill (resolveStruct default) hiddenRequest .standard default
    let literals := (SourceFile.parse hiddenText).literalsFrom 4
    let isStruct := isStructIn default hiddenRequest run.2.calm
    ∃ output, run.1 = .filled output ∧ output.edits.map (·.span) = [⟨64, 66⟩] ∧
      (outermost (literals.filter isStruct)).map (·.braceSpan) = [⟨58, 60⟩, ⟨64, 66⟩] ∧
      ¬ ∀ o ∈ outermost (literals.filter (·.type.mayBeStruct)), isStruct o = false →
        ∀ l ∈ literals, isStrictlyInside l.span o.span = true → isStruct l = false := by
  intro run literals isStruct
  have houter : (outermost (literals.filter isStruct)).map (·.braceSpan) = [⟨58, 60⟩, ⟨64, 66⟩] := by decide +kernel
  obtain ⟨output, hfilled, hspans⟩ : ∃ output, run.1 = .filled output ∧ output.edits.map (·.span) = [⟨64, 66⟩] := by
    have hedit : run.1 = .filled ⟨[⟨⟨64, 66⟩, "\x7b\n\tA: 0,\n\x7d"⟩], []⟩ := by decide +kernel
    exact ⟨_, hedit, rfl⟩
  refine ⟨output, hfilled, hspans, houter, fun hfree => ?_⟩
  have hrun : run = (.filled output, run.2) := by rw [← hfilled]
  have hsame := (fill_line hrun).2.mpr hfree
  rw [hspans] at hsame
  exact absurd (hsame.trans houter) (by decide)

end LiteralFill
