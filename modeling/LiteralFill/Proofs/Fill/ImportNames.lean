import LiteralFill.Proofs.Fill.Renaming
import LiteralFill.Proofs.Fill.StaleCopy

/-!
The names under which other files import packages do not matter to a request, unless a type is not declared in the
package: then the name under which the other file imports it is written before the type in the file that is edited.
-/

namespace LiteralFill

open Resolution (give stop forEach Grows)

namespace Renaming

variable {c : Renaming} {memory : PackageDb}

/-! ## Literals -/

theorem lockstep_packageBeside (scope : Scope) :
    Lockstep (Frame.renaming c memory) (fun i => packageBeside (c.tree i) scope) fun a _ =>
      ∃ p : Option Package, a = fun i => p.map (c.packageOver i) := by
  unfold packageBeside
  cases scope.path.bind (·.parent) with
  | none => exact .give fun _ _ => ⟨none, rfl⟩
  | some dir => exact lockstep_loadDir dir

/-- Over the two trees the type before a literal is resolved to types of the same form. -/
theorem lockstep_literalType (depth : Nat) (scope : Scope) (type : TypeExpr) :
    Lockstep (Frame.renaming c memory) (fun i => packageBeside (c.tree i) scope >>= fun package =>
      resolver (c.tree i) true depth (scope.env package) type .root) fun t _ => c.TypesOver memory t := by
  refine (lockstep_packageBeside scope).bind (fun i _ => grows_resolver ..) ?_
  rintro _ s₁ - ⟨package, rfl⟩
  have hbuffer : ¬ c.IsPlace .buffer := by
    rintro ⟨_, _, _, horigin, -⟩
    cases horigin
  have hv : EnvOver.Valid c memory Same Same ⟨scope.env none, fun _ => scope.file, package, [], []⟩ :=
    ⟨.same scope.file hbuffer _, nofun, nofun⟩
  simp only [resolver_guarded]
  exact (lockstep_resolveWithin depth hv ⟨type, rfl⟩ fun _ _ hq => hq).after s₁

/-- Sessions over the two trees that remember nothing but packages from them. -/
structure Together (c : Renaming) (s : Bool → Session) : Prop extends c.SessionsOver s where
  sources (i : Bool) : (s i).packages.FromTree (c.tree i)

theorem Together.poll {s : Bool → Session} (h : c.Together s) :
    (∀ i, (s i).poll.1 = (s false).poll.1) ∧ c.Together fun i => (s i).poll.2 := by
  obtain ⟨hup, hpolled⟩ := h.toSessionsOver.poll
  refine ⟨hup, hpolled, fun i => ?_⟩
  rw [Session.poll_packages]
  exact h.sources i

/-- What becomes of the type before a literal: resolution stops with one error, or finds no struct types, or struct
types of the same form. -/
inductive StructsOver (c : Renaming) (memory : PackageDb) : (Bool → Except ResolveError ResolvedStruct) → Prop
  | stopped (e : ResolveError) : StructsOver c memory fun _ => .error e
  | notAStruct (name text : Bool → String) : StructsOver c memory fun i => .error (.notAStruct (name i) (text i))
  | struct {t : Bool → Ty} {fields : List (Field (Bool → Ty))} (h : ∀ f ∈ fields, c.TypesOver memory f.type)
    (path : String) : StructsOver c memory fun i => .ok ⟨t i, fields.map (Field.map (· i)), path⟩

theorem structOf_over (scope : Scope) {t : Bool → Ty} (ht : c.TypesOver memory t) :
    ∃ x, c.StructsOver memory x ∧ ∀ i s, structOf scope (t i) s = (x i, s) := by
  have hpath : ∃ path, ∀ i, decidingPath scope (t i) = path := by
    cases ht with
    | spelled hn _ => exact ⟨_, fun i => (namesTogether c memory).path hn i false⟩
    | _ => exact ⟨_, fun _ => rfl⟩
  obtain ⟨path, hpath⟩ := hpath
  rcases ht.structFields with hnone | ⟨fields, hfields, hsome⟩
  · refine ⟨_, .notAStruct (fun i => (t i).display (scope.file.qualifier scope.packagePath))
      (fun i => (t i).underlying.display (scope.file.qualifier scope.packagePath)), fun i s => ?_⟩
    simp only [structOf, ResolvedStruct.ofType?, hnone i]
    rfl
  · refine ⟨_, .struct (t := t) hfields path, fun i s => ?_⟩
    simp only [structOf, ResolvedStruct.ofType?, hsome i, hpath i]
    rfl

/-- Over the two trees a literal is of struct types of the same form. -/
theorem resolveStruct_over {scope : Scope} (hfile : ∃ text, scope.file = SourceFile.parse text) {type : TypeExpr}
    (htype : ∃ l ∈ scope.file.literals, l.type = type) {s : Bool → Session} (hs : c.Together s)
    (hmemory : (resolveStruct (c.tree false) scope type (s false)).2.packages.GrowsTo memory) :
    ∃ (x : Bool → Except ResolveError ResolvedStruct) (s' : Bool → Session), c.StructsOver memory x ∧ c.Together s' ∧
      ∀ i, resolveStruct (c.tree i) scope type (s i) = (x i, s' i) := by
  obtain ⟨depth, hdepth⟩ : ∃ depth, ∀ i, nestingBound (c.tree i) scope.file ≤ depth :=
    ⟨max (nestingBound (c.tree false) scope.file) (nestingBound (c.tree true) scope.file), fun i => by
      cases i with
      | false => exact Nat.le_max_left ..
      | true => exact Nat.le_max_right ..⟩
  let literalType (i : Bool) : Resolution Ty := packageBeside (c.tree i) scope >>= fun package =>
    resolver (c.tree i) true depth (scope.env package) type .root
  have hrun (i : Bool) : resolveStruct (c.tree i) scope type (s i) = (literalType i >>= structOf scope) (s i) := by
    rw [resolveStruct_eq_within, ← resolveStructWithin_eq hfile htype (hs.sources i) (Nat.le_refl _) (hdepth i) (.inl rfl),
      resolveStructWithin, Resolution.bind_assoc]
  have hsources (i : Bool) := (resolveStruct_keepsSources (c.tree i) scope type).step (hs.sources i)
  have hends : (Frame.renaming c memory).Ends (fun t _ => c.TypesOver memory t) s fun i => literalType i (s i) :=
    lockstep_literalType depth scope type s hs.toSessionsOver
  cases hends with
  | lost hlost =>
    rw [hrun] at hmemory
    have hgrows := Grows.after (grows_structOf scope) (r := literalType false) (s false)
    exact absurd (hgrows.packages.trans hmemory) hlost
  | excused he => exact he.elim
  | @stopped e s' hs' _ hstop =>
    have hanswer (i : Bool) : resolveStruct (c.tree i) scope type (s i) = (.error e, s' i) := by
      rw [hrun]
      exact Resolution.bind_of_error (hstop i) _
    refine ⟨_, s', .stopped e, ⟨hs', fun i => ?_⟩, hanswer⟩
    have hi := hsources i
    rwa [hanswer] at hi
  | @answered t s' hs' _ ht hanswer =>
    obtain ⟨x, hx, hstruct⟩ := structOf_over scope ht
    have hanswer (i : Bool) : resolveStruct (c.tree i) scope type (s i) = (x i, s' i) := by
      rw [hrun, Resolution.bind_of_ok (hanswer i), hstruct]
    refine ⟨x, s', hx, ⟨hs', fun i => ?_⟩, hanswer⟩
    have hi := hsources i
    rwa [hanswer] at hi

/-! ## Requests -/

/-- The zero values of some types are the same in both trees. -/
def SameZeros (c : Renaming) (memory : PackageDb) (z : Synthesizer) (zeros : List Ty) : Prop :=
  ∀ t, c.TypesOver memory t → t false ∈ zeros → ∀ i, z.synthesize (t i) = z.synthesize (t false)

section

variable {r : FillRequest} {options : FillOptions}

theorem fillResolved_over {t : Bool → Ty} {fields : List (Field (Bool → Ty))} {path : String}
    (hfields : ∀ f ∈ fields, c.TypesOver memory f.type) {literal : CompositeLiteral}
    (hsame : c.SameZeros memory (options.synthesizer r)
      (resolvedZeros r options literal ⟨t false, fields.map (Field.map (· false)), path⟩))
    {s : Bool → Session} (hs : c.Together s) : ∃ outcome s', c.Together s' ∧ ∀ i,
      fillResolved r options literal ⟨t i, fields.map (Field.map (· i)), path⟩ (s i) = (outcome, s' i) := by
  obtain ⟨cancel, hcancel⟩ := hs.cancel
  have hover (i : Bool) : s i = (s false).over (s i).packages (s i).forwarded := by
    have hi : (s i).cancel = (s false).cancel := (hcancel i).trans (hcancel false).symm
    cases hsi : s i with
    | mk packages cancel forwarded =>
      rw [hsi] at hi
      rw [show cancel = (s false).cancel from hi]
      rfl
  let x := fillResolved r options literal ⟨t false, fields.map (Field.map (· false)), path⟩ (s false)
  refine ⟨x.1, fun i => x.2.over (s i).packages (s i).forwarded, ⟨⟨hs.packages, x.2.cancel, fun _ => rfl⟩, hs.sources⟩,
    fun i => ?_⟩
  rw [hover i, LiteralFill.fillResolved_over,
    fillResolved_same r options literal t path (o := false) (i := i)
      (fun f hf hzero => hsame f.type (hfields f hf) hzero i)]

variable (hfile : ∃ text, r.file = SourceFile.parse text)
include hfile

/-- A literal ends alike over both trees, or ends the request. -/
theorem fillLiteral_over {literal : CompositeLiteral} (hliteral : literal ∈ r.file.literals) {s : Bool → Session}
    (hs : c.Together s)
    (hmemory : (fillLiteral (resolveStruct (c.tree false)) r options literal (s false)).2.packages.GrowsTo memory)
    (hsame : c.SameZeros memory (options.synthesizer r)
      (literalZeros (resolveStruct (c.tree false)) r options literal (s false))) :
    (∀ i, ∃ outcome, (fillLiteral (resolveStruct (c.tree i)) r options literal (s i)).1 = .stopped outcome) ∨
      ∃ outcome s', c.Together s' ∧ ∀ i,
        fillLiteral (resolveStruct (c.tree i)) r options literal (s i) = (outcome, s' i) := by
  obtain ⟨hup, hpolled⟩ := hs.poll
  have hrun (i : Bool) : fillLiteral (resolveStruct (c.tree i)) r options literal (s i) =
      fillPolled (resolveStruct (c.tree i)) r options literal (s false).poll.1 (s i).poll.2 := by
    rw [fillLiteral_eq, hup]
  simp only [hrun] at hmemory ⊢
  cases hflag : (s false).poll.1 with
  | true => exact .inl fun _ => ⟨_, rfl⟩
  | false =>
    rw [hflag, fillPolled, fillFound_packages] at hmemory
    obtain ⟨x, s', hx, hs', hresolved⟩ := resolveStruct_over hfile ⟨literal, hliteral, rfl⟩ hpolled hmemory
    simp only [fillPolled, hresolved]
    cases hx with
    | stopped e => exact .inr ⟨onResolveError r literal e, s', hs', fun _ => rfl⟩
    | notAStruct name text =>
      by_cases hothers : r.target.skipsOthers = true
      · simp only [fillFound, onResolveError, hothers, ↓reduceIte]
        exact .inr ⟨.leftAlone, s', hs', fun _ => rfl⟩
      · simp only [fillFound, onResolveError, hothers]
        exact .inl fun _ => ⟨_, rfl⟩
    | struct hfields path =>
      simp only [literalZeros, hresolved] at hsame
      exact .inr (fillResolved_over hfields hsame hs')

/-- Literals get the same edits over both trees, or end the request. -/
theorem fillLiterals_over {literals : List CompositeLiteral} (hliterals : ∀ l ∈ literals, l ∈ r.file.literals)
    {s : Bool → Session} (hs : c.Together s)
    (hmemory : (fillLiterals (resolveStruct (c.tree false)) r options literals (s false)).2.packages.GrowsTo memory)
    (hsame : c.SameZeros memory (options.synthesizer r)
      (literalsZeros (resolveStruct (c.tree false)) r options literals (s false))) :
    (∀ i, ∃ outcome, (fillLiterals (resolveStruct (c.tree i)) r options literals (s i)).1 = .stopped outcome) ∨
      ∃ edits paths, ∀ i, (fillLiterals (resolveStruct (c.tree i)) r options literals (s i)).1 = .edited edits paths := by
  induction literals generalizing s with
  | nil => exact .inr ⟨[], [], fun _ => rfl⟩
  | cons literal rest ih =>
    simp only [fillLiterals_cons] at hmemory ⊢
    rw [literalsZeros] at hsame
    have hresolve := grows_resolveStruct (c.tree false)
    have hliteral := fillLiteral_over hfile (hliterals literal List.mem_cons_self) hs
      ((fillRest_packages hresolve r options rest _ _).trans hmemory)
      fun t ht hmem => hsame t ht (List.mem_append_left _ hmem)
    rcases hliteral with hstopped | ⟨outcome, s', hs', houtcome⟩
    · refine .inl fun i => ?_
      obtain ⟨outcome, houtcome⟩ := hstopped i
      rw [houtcome]
      exact ⟨outcome, rfl⟩
    · simp only [houtcome] at hmemory hsame ⊢
      have hrest := ih (fun l hl => hliterals l (List.mem_cons_of_mem _ hl)) hs'
      have hzeros : c.SameZeros memory (options.synthesizer r)
          (literalsZeros (resolveStruct (c.tree false)) r options rest (s' false)) :=
        fun t ht hmem => hsame t ht (List.mem_append_right _ hmem)
      cases outcome with
      | stopped outcome => exact .inl fun _ => ⟨outcome, rfl⟩
      | leftAlone => exact hrest hmemory hzeros
      | edited edit paths =>
        rcases hrest hmemory hzeros with hstopped | ⟨edits, more, hedits⟩
        · refine .inl fun i => ?_
          obtain ⟨outcome, houtcome⟩ := hstopped i
          simp only [fillRest, houtcome]
          exact ⟨outcome, rfl⟩
        · simp only [fillRest, hedits]
          exact .inr ⟨edit :: edits, paths.union more, fun _ => rfl⟩

end

end Renaming

/-- The output of a request that succeeds. -/
def FillOutcome.output? : FillOutcome → Option FillOutput
  | .filled output => some output
  | _ => none

/-- A file of a package has its own way to write the types of a path, whatever the package there is called: they belong
to the package, or the file imports the path without a prefix or under an alias. -/
def SourceFile.HasNameFor (f : SourceFile) (package path : String) : Prop :=
  ∀ n m : TypeName, n.path = path → m.path = path → f.qualifier package n = f.qualifier package m

section

variable (resolve : StructResolver) (r : FillRequest) (options : FillOptions) (s : Session)

/-- The function and interface types that stand in the zero values of a request. -/
def fillForms : List String := (fillValues resolve r options s).flatMap (·.forms)

end

theorem Renaming.sameZeros (c : Renaming) {r : FillRequest} {options : FillOptions} {s : Session} {resolve : StructResolver}
    {memory : PackageDb} (hforms : ∀ text ∈ fillForms resolve r options s, (predeclaredType text).isSome = true)
    (hnames : r.file.HasNameFor r.packagePath c.path ∨ ∀ n ∈ fillNames resolve r options s,
      n.path = c.path → n.package = c.name false → ¬ memory.LookedInVain n.path n.name) :
    c.SameZeros memory (options.synthesizer r) (fillZeros resolve r options s) := by
  intro t ht hzero i
  have hvalue : (options.synthesizer r).spelled (t false) ∈ fillValues resolve r options s := List.mem_map_of_mem hzero
  refine ht.synthesize_same _ (c.namesTogether memory) ⟨fun {n} hn hmem i => ?_, fun {x} hx hmem i => ?_⟩ i
  · rcases hn with ⟨n, rfl⟩ | ⟨name, hvain, rfl⟩
    · rfl
    · rcases hnames with hown | hnames
      · have hsame : (options.synthesizer r).qualifier ⟨c.path, c.name i, name⟩ =
            (options.synthesizer r).qualifier ⟨c.path, c.name false, name⟩ := hown _ _ rfl rfl
        unfold showName
        rw [hsame]
      · exact absurd hvain (hnames _ (List.mem_flatMap.mpr ⟨_, hvalue, hmem⟩) rfl rfl)
  · rcases hx with ⟨text, rfl⟩ | hnone
    · rfl
    · have hsome := hforms _ (List.mem_flatMap.mpr ⟨_, hvalue, hmem⟩)
      rw [hnone false] at hsome
      cases hsome

/-- The name under which another file imports a package does not matter: over two trees in which a file imports it under
two names a request with new sessions has the same edits and asks for the same imports, if no function or interface type
stands in the zero values, unless a zero value names a type with that name that is not declared in the package, and the
file that is edited has no name for the package. -/
theorem fill_renaming (c : Renaming) {r : FillRequest} {options : FillOptions} {s : Session}
    (hfile : ∃ text, r.file = SourceFile.parse text) (hnew : s.packages.byPath = [] ∧ s.packages.byDir = [])
    (hforms : ∀ text ∈ fillForms (resolveStruct (c.tree false)) r options s, (predeclaredType text).isSome = true)
    (hnames : r.file.HasNameFor r.packagePath c.path ∨ ∀ n ∈ fillNames (resolveStruct (c.tree false)) r options s,
      n.path = c.path → n.package = c.name false →
        ¬ (fill (resolveStruct (c.tree false)) r options s).2.packages.LookedInVain n.path n.name) :
    (fill (resolveStruct (c.tree true)) r options s).1.output? =
      (fill (resolveStruct (c.tree false)) r options s).1.output? := by
  cases hlocate : locate r.file r.target with
  | error e =>
    unfold fill
    rw [hlocate]
  | ok literals =>
    have hliterals : ∀ l ∈ literals, l ∈ r.file.literals := by
      obtain ⟨text, htext⟩ := hfile
      rw [htext] at hlocate ⊢
      exact (SourceFile.locate_apart hlocate).1
    have hzeros : fillZeros (resolveStruct (c.tree false)) r options s =
        literalsZeros (resolveStruct (c.tree false)) r options literals s := by
      rw [fillZeros, hlocate]
    have htogether : c.Together fun _ => s := by
      refine ⟨⟨⟨s.packages, fun i => ?_⟩, s.cancel, fun _ => rfl⟩, fun _ => ⟨by simp [hnew.1], by simp [hnew.2]⟩⟩
      simp only [Renaming.dbOver, hnew.1, hnew.2, List.map_nil]
      rw [← hnew.1, ← hnew.2]
    have hanswer (i : Bool) := fill_of_locate hlocate (resolveStruct (c.tree i)) options s
    have hsame := Renaming.sameZeros c (s := s) hforms hnames
    rw [hzeros] at hsame
    have houtput (i : Bool) : (fill (resolveStruct (c.tree i)) r options s).1.output? =
        (answerOf r (fillLiterals (resolveStruct (c.tree i)) r options literals s).1).output? := by rw [(hanswer i).1]
    rw [houtput, houtput]
    rcases Renaming.fillLiterals_over hfile hliterals htogether (by rw [(hanswer false).2]; exact .refl _) hsame with
      hstopped | ⟨edits, paths, hedits⟩
    · have hnone (i : Bool) :
          (answerOf r (fillLiterals (resolveStruct (c.tree i)) r options literals s).1).output? = none := by
        obtain ⟨outcome, houtcome⟩ := hstopped i
        have hnot := fillLiterals_stopped (Prod.ext houtcome rfl)
        rw [houtcome]
        cases outcome with
        | filled output => exact absurd rfl (hnot output)
        | _ => rfl
      rw [hnone, hnone]
    · rw [hedits, hedits]

/-- The text of a file that imports a package under a name, with a struct type that has fields of a type of it. -/
def aliasingText (name type : String) : String :=
  "package m\nimport " ++ name ++ " \"z/q\"\ntype T struct\x7b A " ++ name ++ "." ++ type ++ "; B [1]*" ++
    name ++ "." ++ type ++ " \x7d\n"

/-- A tree with this file and with the package, which declares one type. -/
def aliasingTree (type name : String) : FileTree :=
  ⟨[(["m"], .directory), (["m", "a.go"], .file (encodeText (aliasingText name type))), (["z"], .directory),
    (["z", "q"], .directory), (["z", "q", "q.go"], .file (encodeText "package q\ntype U struct\x7b N int \x7d\n"))], []⟩

theorem aliasingTree_sameBut (type name name' : String) :
    FileTree.SameBut ["m", "a.go"] (aliasingTree type name) (aliasingTree type name') where
  current := rfl
  places := rfl
  elsewhere other hother := by
    have hne : (other == ["m", "a.go"]) = false := by simpa using hother
    simp [FileTree.entryAt, aliasingTree, List.lookup_cons, hne]
  file := ⟨encodeText (aliasingText name type), encodeText (aliasingText name' type), rfl, rfl⟩

/-- The two trees with one and the other name of the package. -/
def aliasing (type : String)
    (hreads : ∀ i, (aliasingTree type (cond i "y" "x")).textAt ["m", "a.go"] = some (aliasingText (cond i "y" "x") type))
    (hrenames : (SourceFile.parse (aliasingText "x" type).toList).renames "x" "y" "z/q"
      (SourceFile.parse (aliasingText "y" type).toList) = true) : Renaming where
  tree i := aliasingTree type (cond i "y" "x")
  place := ["m", "a.go"]
  text i := aliasingText (cond i "y" "x") type
  name i := cond i "y" "x"
  path := "z/q"
  same := aliasingTree_sameBut ..
  reads := hreads
  renames := hrenames

/-- A request for another file of the package. -/
def besideRequest : FillRequest :=
  ⟨SourceFile.parse "package m\nvar x = T\x7b\x7d\n".toList, some ⟨"m/c.go"⟩, "m", .offset 18⟩

/-- A new session that looks for packages in the tree. -/
def besideSession : Session := .ofPackages (PackageDb.empty.addRoot ⟨"."⟩)

theorem aliasing_filled :
    (fill (resolveStruct (aliasingTree "U" "x")) besideRequest .standard besideSession).1 =
      .filled ⟨[⟨⟨19, 21⟩, "\x7b\n\tA: q.U\x7b\x7d,\n\tB: [1]*q.U\x7bnil\x7d,\n\x7d"⟩], ["z/q"]⟩ ∧
    fillForms (resolveStruct (aliasingTree "U" "x")) besideRequest .standard besideSession = [] ∧
    fillNames (resolveStruct (aliasingTree "U" "x")) besideRequest .standard besideSession =
      [⟨"z/q", "q", "U"⟩, ⟨"z/q", "q", "U"⟩] := by
  decide +kernel

/-- A type that the package declares is written with the name of the package, one that it does not declare with the name
of the import in the other file. -/
theorem fill_renaming_aliasing :
    ((fill (resolveStruct (aliasingTree "U" "x")) besideRequest .standard besideSession).1 =
        .filled ⟨[⟨⟨19, 21⟩, "\x7b\n\tA: q.U\x7b\x7d,\n\tB: [1]*q.U\x7bnil\x7d,\n\x7d"⟩], ["z/q"]⟩ ∧
      (fill (resolveStruct (aliasingTree "U" "y")) besideRequest .standard besideSession).1.output? =
        (fill (resolveStruct (aliasingTree "U" "x")) besideRequest .standard besideSession).1.output?) ∧
    ∀ name ∈ ["x", "y"], (fill (resolveStruct (aliasingTree "V" name)) besideRequest .standard besideSession).1 =
      .filled ⟨[⟨⟨19, 21⟩, "\x7b\n\tA: " ++ name ++ ".V\x7b\x7d,\n\tB: [1]*q.V\x7bnil\x7d,\n\x7d"⟩], ["z/q"]⟩ := by
  have hreads (i : Bool) :
      (aliasingTree "U" (cond i "y" "x")).textAt ["m", "a.go"] = some (aliasingText (cond i "y" "x") "U") := by
    cases i <;> decide +kernel
  obtain ⟨hfilled, hforms, hnames⟩ := aliasing_filled
  refine ⟨⟨hfilled, fill_renaming (aliasing "U" hreads (by decide +kernel)) ⟨_, rfl⟩ ⟨rfl, rfl⟩ ?_ ?_⟩,
    by decide +kernel⟩
  · intro text htext
    simp only [aliasing, cond_false, hforms] at htext
    cases htext
  · refine .inr fun n hn _ hname => ?_
    simp only [aliasing, cond_false, hnames, List.mem_cons, List.not_mem_nil, or_false, or_self] at hn
    subst hn
    exact absurd hname (show "q" ≠ "x" by decide)

end LiteralFill
