import LiteralFill.Proofs.Fill.Agreement
import LiteralFill.Proofs.Fill.Extent
import Mathlib.Data.List.Perm.Subperm

/-!
Resolution ends, unless an alias leads back to itself. Between two declared types that are looked into each alias
is expanded once, and each declared type is looked into once; so the types around one another are no deeper than
the declarations that can be met allow, and resolution within a greater depth finds the same. It then finds what
the recursion finds that does not watch its aliases, and that recursion has an end.
-/

namespace LiteralFill

open Resolution (give stop forEach Grows)

/-! ## Recursion -/

/-- The names, with the aliases that are being expanded if these are kept. -/
def Env.kept (env : Env) (guarded : Bool) : Env := if guarded then env else { env with expanding := [] }

section

variable (env : Env) (guarded : Bool)

@[simp] theorem Env.kept_path : (env.kept guarded).path = env.path := by cases guarded <;> rfl

@[simp] theorem Env.kept_name : (env.kept guarded).name = env.name := by cases guarded <;> rfl

@[simp] theorem Env.kept_visiting : (env.kept guarded).visiting = env.visiting := by cases guarded <;> rfl

@[simp] theorem Env.arrayLength_kept (l : WrittenLength) : (env.kept guarded).arrayLength l = env.arrayLength l := by
  cases guarded <;> rfl

@[simp] theorem Env.lookup_kept (tree : FileTree) (name : String) :
    (env.kept guarded).lookup tree name = env.lookup tree name := by cases guarded <;> rfl

@[simp] theorem Env.importNamed_kept (tree : FileTree) (qualifier : String) :
    (env.kept guarded).importNamed tree qualifier = env.importNamed tree qualifier := by cases guarded <;> rfl

end

/-- A type with at most `depth` types around one another. Unless it is guarded, the recursion forgets which aliases
it is expanding. -/
def resolver (tree : FileTree) (guarded : Bool) : Nat → Inner
  | 0 => fun _ _ _ => stop .endless
  | depth + 1 => fun env type mode => resolveForm tree (resolver tree guarded depth) (env.kept guarded) type mode

theorem resolver_guarded (tree : FileTree) (depth : Nat) : resolver tree true depth = resolveWithin tree depth := by
  induction depth with
  | zero => rfl
  | succ depth ih =>
    funext env type mode
    show resolveForm tree (resolver tree true depth) env type mode =
      resolveForm tree (resolveWithin tree depth) env type mode
    rw [ih]

/-- Depths that leave room for more inside. -/
theorem exists_inner {ι : Type} {n : Nat} {depth : ι → Nat} (h : ∀ i, n + 1 ≤ depth i) :
    ∃ inner : ι → Nat, depth = (fun i => inner i + 1) ∧ ∀ i, n ≤ inner i := by
  refine ⟨fun i => depth i - 1, funext fun i => ?_, fun i => ?_⟩
  · exact (Nat.sub_add_cancel (Nat.le_trans (Nat.le_add_left ..) (h i))).symm
  · exact Nat.le_sub_one_of_lt (h i)

/-- What is being expanded does not matter to the recursion that forgets it. -/
theorem resolver_forgets (tree : FileTree) (depth : Nat) (env : Env) (expanding : List (Origin × TypeName × Nat))
    (type : TypeExpr) (mode : Mode) :
    resolver tree false depth { env with expanding } type mode = resolver tree false depth env type mode := by
  cases depth <;> rfl

theorem resolver_kept (tree : FileTree) (guarded : Bool) (depth : Nat) (env : Env) (type : TypeExpr) (mode : Mode) :
    resolver tree guarded depth (env.kept guarded) type mode = resolver tree guarded depth env type mode := by
  cases guarded with
  | false => exact resolver_forgets ..
  | true => rfl

section

variable {tree : FileTree} {guarded : Bool} {depth : Nat} {env : Env} {site : Site} (args : List Ty)

theorem enterDeclared_alias (halias : site.decl.isAlias = true) (hnew : guarded = true → site.place ∉ env.expanding) :
    enterDeclared (resolver tree guarded depth) (env.kept guarded) site args =
      resolver tree guarded depth (env.expandingAlias site args) site.decl.type .value := by
  unfold enterDeclared
  rw [if_pos halias]
  cases guarded with
  | true => exact if_neg (by simpa [Env.kept] using hnew rfl)
  | false =>
    refine (if_neg (by simp [Env.kept])).trans ?_
    exact resolver_forgets tree depth (env.expandingAlias site args) [site.place] ..

theorem enterDeclared_expanding (halias : site.decl.isAlias = true) (hseen : site.place ∈ env.expanding) :
    enterDeclared (resolver tree true depth) (env.kept true) site args = stop .endless := by
  unfold enterDeclared
  rw [if_pos halias]
  exact if_pos (by simpa [Env.kept] using hseen)

theorem enterDeclared_type (halias : site.decl.isAlias = false) (hnew : site.typeName ∉ env.visiting) :
    enterDeclared (resolver tree guarded depth) (env.kept guarded) site args =
      resolver tree guarded depth (env.enteringType site args) site.decl.type .value >>= fun underlying =>
        give (.named site.typeName args underlying) := by
  cases guarded <;> simp [enterDeclared, Env.kept, Env.enteringType, Env.inside, halias, hnew]

theorem enterDeclared_visiting (halias : site.decl.isAlias = false) (hseen : site.typeName ∈ env.visiting) :
    enterDeclared (resolver tree guarded depth) (env.kept guarded) site args = give (.unseen site.typeName) := by
  simp [enterDeclared, halias, hseen]

end

theorem grows_resolver (tree : FileTree) (guarded : Bool) (depth : Nat) (env : Env) (type : TypeExpr) (mode : Mode) :
    Grows (resolver tree guarded depth env type mode) := by
  induction depth generalizing env type mode with
  | zero => exact .stop _
  | succ depth ih => exact grows_resolveForm ih ..

/-! ## What is looked up -/

namespace Resolution

variable {α : Type} {tree : FileTree} {memory : PackageDb} {s s' : Session}

/-- What a load answers is what is remembered after it. -/
theorem load_answer {path : String} {package : Option Package}
    (h : Resolution.load tree path s = (.ok package, s')) (hw : s'.packages.GrowsTo memory) :
    memory.byPath.lookup path = some package := by
  obtain ⟨-, s₁, -, hload⟩ := bind_ok h
  obtain ⟨hpackage, hs'⟩ := Prod.mk.inj hload
  cases Except.ok.inj hpackage
  subst hs'
  exact hw.byPath (PackageDb.load_remembered tree path s₁.packages)

/-- What is found among imports is found in a package that is remembered under the path of one of them. -/
theorem firstOf_answer {f : ImportSpec → Package → Option α} {imports : List ImportSpec} {a : α}
    (h : Resolution.firstOf tree f imports s = (.ok (some a), s')) (hw : s'.packages.GrowsTo memory) :
    ∃ i ∈ imports, ∃ p, memory.byPath.lookup i.path = some (some p) ∧ f i p = some a := by
  induction imports generalizing s with
  | nil => cases h
  | cons i rest ih =>
    obtain ⟨package, s₁, hload, hrest⟩ := bind_ok h
    cases hfound : package.bind (f i) with
    | some b =>
      rw [hfound] at hrest
      obtain ⟨hb, rfl⟩ := Prod.mk.inj hrest
      cases Except.ok.inj hb
      obtain ⟨p, rfl, hp⟩ := Option.bind_eq_some_iff.mp hfound
      exact ⟨i, List.mem_cons_self, p, load_answer hload hw, hp⟩
    | none =>
      rw [hfound] at hrest
      obtain ⟨j, hj, hfound⟩ := ih hrest
      exact ⟨j, List.mem_cons_of_mem _ hj, hfound⟩

end Resolution

namespace World

variable {v : World}

theorem Holds.file_mem (hsources : ∀ p ∈ v.packages, p.FromTree v.tree) {o : Origin} {f : SourceFile}
    (h : v.Holds o f) : f ∈ v.sources := by
  cases h with
  | buffer => exact List.mem_cons_self
  | member hp hf => exact List.mem_cons_of_mem _ ((hsources _ hp).mem_sources hf)

theorem importPath_mem {f : SourceFile} (hf : f ∈ v.sources) {i : ImportSpec} (hi : i ∈ f.imports) :
    i.path ∈ v.importPaths := List.mem_flatMap.mpr ⟨f, hf, List.mem_map_of_mem hi⟩

theorem package_mem {path : String} (hpath : path ∈ v.importPaths) {p : Package}
    (h : v.memory.byPath.lookup path = some (some p)) : p ∈ v.packages :=
  List.mem_append_right _ (List.mem_filterMap.mpr ⟨path, hpath, by simp [h]⟩)

variable {env : Env} (hfile : env.file ∈ v.sources) {s s' : Session}
include hfile

/-- A declaration that is looked up is found near, or in a package that can be met. -/
theorem lookup_declaration {name : String} {site : Site}
    (h : env.lookup v.tree name s = (.ok (some (.declaration site)), s')) (hw : s'.packages.GrowsTo v.memory) :
    env.lookupNear name = some (.declaration site) ∨ ∃ p ∈ v.packages, siteIn p name none = some site := by
  rcases env.lookup_cases v.tree name with ⟨found, hnear, hlookup⟩ | hlookup
  · rw [hlookup] at h
    cases h
    exact .inl hnear
  · rw [hlookup] at h
    obtain ⟨found, s₁, hfirst, hgive⟩ := Resolution.bind_ok h
    obtain ⟨hfound, rfl⟩ := Prod.mk.inj hgive
    obtain ⟨site', rfl, hsite⟩ := Option.map_eq_some_iff.mp (Except.ok.inj hfound)
    cases hsite
    obtain ⟨i, hi, p, hp, hsite⟩ := Resolution.firstOf_answer hfirst hw
    exact .inr ⟨p, package_mem (importPath_mem hfile (List.mem_of_mem_filter hi)) hp, hsite⟩

theorem EnvIn.lookup (he : v.EnvIn env) {name : String} {site : Site}
    (h : env.lookup v.tree name s = (.ok (some (.declaration site)), s')) (hw : s'.packages.GrowsTo v.memory) :
    v.SiteIn site := by
  obtain hnear | ⟨p, hp, hsite⟩ := lookup_declaration hfile h hw
  · exact he.lookupNear hnear
  · exact siteIn_of_mem hp hsite

/-- An import that a qualifier stands for is one of a file that can be met. -/
theorem importNamed_path_mem {q path name : String}
    (h : env.importNamed v.tree q s = (.ok (some (path, name)), s')) (hw : s'.packages.GrowsTo v.memory) :
    path ∈ v.importPaths := by
  unfold Env.importNamed at h
  cases himport : env.file.importByName q with
  | some i =>
    rw [himport] at h
    cases h
    exact importPath_mem hfile (List.mem_of_find?_eq_some himport)
  | none =>
    rw [himport] at h
    obtain ⟨i, hi, p, -, hname⟩ := Resolution.firstOf_answer h hw
    split at hname
    · cases hname
      exact importPath_mem hfile (List.mem_of_mem_filter hi)
    · cases hname

omit hfile in
theorem importedSite_declaration {name : String} {imported : Option (String × String)}
    (hi : ∀ i ∈ imported, i.1 ∈ v.importPaths) {site : Site}
    (h : importedSite v.tree name imported s = (.ok (some site), s')) (hw : s'.packages.GrowsTo v.memory) :
    ∃ p ∈ v.packages, siteIn p name none = some site := by
  cases imported with
  | none => cases h
  | some i =>
    obtain ⟨package, s₁, hload, hgive⟩ := Resolution.bind_ok h
    obtain ⟨hfound, rfl⟩ := Prod.mk.inj hgive
    obtain ⟨p, rfl, hsite⟩ := Option.bind_eq_some_iff.mp (Except.ok.inj hfound)
    exact ⟨p, package_mem (hi i rfl) (Resolution.load_answer hload hw), hsite⟩

end World

/-! ## Equal sessions -/

/-- Two runs over the same sessions, the first of which ends within a memory. Against a recursion that is not
guarded nothing is claimed of a run that finds no end. -/
def Frame.equal (memory : PackageDb) (guarded : Bool) : Frame Bool where
  together s := s false = s true
  lost s := ¬ (s false).packages.GrowsTo memory
  excused i e _ := guarded = false ∧ i = false ∧ e = .endless
  lost_grows := @not_growsTo_of_grows Bool memory false

section

variable {α : Type} {memory : PackageDb} {guarded : Bool}

theorem Lockstep.equal {r : Resolution α} (hr : r.Grows) :
    Lockstep (Frame.equal memory guarded) (fun _ => r) fun a _ => Same a := by
  intro s hs
  have hsame (i : Bool) : s i = s false := by
    cases i with
    | false => rfl
    | true => exact hs.symm
  have hend (i : Bool) : r (s i) = ((r (s false)).1, (r (s false)).2) := by rw [hsame i]
  have hgrows (i : Bool) : (s i).GrowsTo (r (s false)).2 := hsame i ▸ hr.step (s false)
  cases hresult : (r (s false)).1 with
  | error e =>
    rw [hresult] at hend
    exact @Frame.Ends.stopped _ _ _ _ _ _ e (fun _ => (r (s false)).2) rfl hgrows hend
  | ok a =>
    rw [hresult] at hend
    exact @Frame.Ends.answered _ _ _ _ _ _ (fun _ => a) (fun _ => (r (s false)).2) rfl hgrows ⟨a, rfl⟩ hend

theorem Frame.equal_loadsAlike (tree : FileTree) : (Frame.equal memory guarded).LoadsAlike tree :=
  fun path => .equal (.load tree path)

/-- Runs that end alike over equal sessions end with the same. -/
theorem Frame.Ends.eq {s : Bool → Session} {x : Bool → Except ResolveError α × Session}
    (h : (Frame.equal memory guarded).Ends (fun a _ => Same a) s x) (hmemory : (x false).2.packages = memory)
    (hends : guarded = true ∨ (x false).1 ≠ .error .endless) : x true = x false := by
  cases h with
  | lost hlost => exact (hlost (hmemory ▸ .refl _)).elim
  | excused hexcused hrun =>
    obtain ⟨rfl, rfl, rfl⟩ := hexcused
    rcases hends with hends | hends
    · cases hends
    · exact absurd hrun hends
  | stopped hs _ hrun => exact (hrun true).trans ((congrArg _ hs.symm).trans (hrun false).symm)
  | answered hs _ ha hrun =>
    obtain ⟨a, rfl⟩ := ha
    exact (hrun true).trans ((congrArg _ hs.symm).trans (hrun false).symm)

end

/-! ## Recursions in step -/

/-- Where something is claimed, some run goes no further than a memory. -/
def Frame.Remembers {ι : Type} (F : Frame ι) (memory : PackageDb) : Prop :=
  ∀ s, F.together s → F.lost s ∨ ∃ i, (s i).packages.GrowsTo memory

theorem Frame.equal_remembers (memory : PackageDb) (guarded : Bool) :
    (Frame.equal memory guarded).Remembers memory := by
  intro s _
  by_cases h : (s false).packages.GrowsTo memory
  · exact .inr ⟨false, h⟩
  · exact .inl h

/-- What a look-up answers it answers in all runs, from packages that are remembered. -/
theorem Lockstep.remembered {ι α : Type} {F : Frame ι} {memory : PackageDb} (hF : F.Remembers memory)
    {r : Resolution α} (hr : Lockstep F (fun _ => r) fun a _ => Same a) {Q : (ι → α) → (ι → Session) → Prop}
    (hQ : ∀ s a s', r s = (.ok a, s') → s'.packages.GrowsTo memory → ∀ sessions, Q (fun _ => a) sessions) :
    Lockstep F (fun _ => r) Q := by
  intro s hs
  cases hr s hs with
  | lost h => exact .lost h
  | excused he h => exact .excused he h
  | stopped hs' hg h => exact .stopped hs' hg h
  | @answered a s' hs' hg ha h =>
    obtain ⟨b, rfl⟩ := ha
    rcases hF s' hs' with hlost | ⟨i, hmemory⟩
    · exact .lost (by simpa only [h] using hlost)
    · exact .answered hs' hg (hQ _ b _ (h i) hmemory s') h

section

variable {ι : Type} {F : Frame ι} {v : World} {guarded : ι → Bool} {inner : ι → Nat} {env : Env}

/-- A declared type is entered in step if the type it is declared to be is resolved so. -/
theorem lockstep_enterType {tree : FileTree} {site : Site} (args : List Ty) (halias : site.decl.isAlias = false)
    (htype : site.typeName ∉ env.visiting → Lockstep F
      (fun i => resolver tree (guarded i) (inner i) (env.enteringType site args) site.decl.type .value)
      fun t _ => Same t) :
    Lockstep F (fun i => enterDeclared (resolver tree (guarded i) (inner i)) (env.kept (guarded i)) site args)
      fun t _ => Same t := by
  by_cases hseen : site.typeName ∈ env.visiting
  · simp only [enterDeclared_visiting args halias hseen]
    exact .give fun _ _ => ⟨_, rfl⟩
  · simp only [enterDeclared_type args halias hseen]
    refine (htype hseen).bind (fun _ _ => .give _) ?_
    rintro _ _ - ⟨underlying, rfl⟩
    exact .give fun _ _ => ⟨_, rfl⟩

/-- Recursions of which some are guarded are in step if they enter in step the declarations they find. -/
theorem lockstep_resolver_succ (hF : F.LoadsAlike v.tree) (hmemory : F.Remembers v.memory)
    (hfile : env.file ∈ v.sources) {P : Site → Prop}
    (hnear : ∀ name site, env.lookupNear name = some (.declaration site) → P site)
    (hmember : ∀ p ∈ v.packages, ∀ name site, siteIn p name none = some site → P site)
    (henter : ∀ site, P site → ∀ args, Lockstep F
      (fun i => enterDeclared (resolver v.tree (guarded i) (inner i)) (env.kept (guarded i)) site args)
      fun t _ => Same t)
    {type : TypeExpr} (mode : Mode) (hparts : ∀ t ∈ type.parts, ∀ mode,
      Lockstep F (fun i => resolver v.tree (guarded i) (inner i) env t mode) fun t _ => Same t) :
    Lockstep F (fun i => resolver v.tree (guarded i) (inner i + 1) env type mode) fun t _ => Same t := by
  have hstep : InStep F Same (fun site _ => ∃ one, site = (fun _ => one) ∧ P one)
      (fun i => ∀ e ∈ i, e.1 ∈ v.importPaths) (fun _ => v.tree) (fun i => resolver v.tree (guarded i) (inner i))
      (fun i => env.kept (guarded i)) := {
    grows := fun i => grows_resolver v.tree _ _
    types := typesTogether_same.toFormsTogether
    name := ⟨(env.path, env.name), by simp only [Env.kept_path, Env.kept_name]⟩
    length := fun l => ⟨env.arrayLength l, by simp only [Env.arrayLength_kept]⟩
    lookup := fun name => by
      simp only [Env.lookup_kept]
      refine (hF.lookup env name).remembered hmemory fun s found s' hrun hw _ => ?_
      rcases found with - | t | site
      · exact .none _
      · exact .type _ ⟨t, rfl⟩
      · refine .declaration ⟨site, rfl, ?_⟩
        obtain hfound | ⟨p, hp, hsite⟩ := World.lookup_declaration hfile hrun hw
        · exact hnear name site hfound
        · exact hmember p hp name site hsite
    importNamed := fun q => by
      simp only [Env.importNamed_kept]
      refine (hF.importNamed env q).remembered hmemory fun s imported s' hrun hw _ => ⟨imported, ?_, rfl⟩
      rintro ⟨path, name⟩ ⟨⟩
      exact World.importNamed_path_mem hfile hrun hw
    imported := fun name imported hi =>
      (hF.importedSite name imported).remembered hmemory fun s site s' hrun hw _ => by
        cases site with
        | none => exact .none _
        | some site =>
          obtain ⟨p, hp, hsite⟩ := World.importedSite_declaration hi hrun hw
          exact .some ⟨site, rfl, hmember p hp name site hsite⟩
    site := by
      rintro _ _ ⟨site, rfl, -⟩
      exact ⟨_, rfl⟩
    enter := by
      rintro _ s args - ⟨site, rfl, hsite⟩ hargs
      obtain ⟨args', hargs'⟩ := Same.of_forall hargs
      simp only [fun i => congrFun hargs' i]
      exact (henter site hsite args').after s }
  refine hstep.form type mode fun t ht mode => ?_
  simp only [resolver_kept]
  exact hparts t ht mode

end

/-! ## Room -/

namespace World

variable (v : World)

/-- Names visible in a file that can be met, inside declared types and aliases that can. -/
structure Inside (env : Env) : Prop where
  names : v.EnvIn env
  visiting : env.visiting.Nodup
  visited : env.visiting ⊆ v.names
  expanding : env.expanding.Nodup
  expanded : env.expanding ⊆ v.places

/-- How many declarations can still be entered: with each declared type all aliases can be expanded anew. -/
def room (env : Env) : Nat :=
  (v.names.length - env.visiting.length) * (v.places.length + 1) + (v.places.length - env.expanding.length)

variable {v} {env : Env} (h : v.Inside env) {site : Site} (hs : v.SiteIn site) (args : List Ty)
include h hs

theorem Inside.expandingAlias (hnew : site.place ∉ env.expanding) :
    v.Inside (env.expandingAlias site args) where
  names := ⟨hs.holds, (h.names.inside hs args).package, hs.label⟩
  visiting := h.visiting
  visited := h.visited
  expanding := List.nodup_cons.mpr ⟨hnew, h.expanding⟩
  expanded := List.cons_subset.mpr ⟨hs.place_mem, h.expanded⟩

theorem Inside.room_expandingAlias (hnew : site.place ∉ env.expanding) :
    v.room (env.expandingAlias site args) + 1 ≤ v.room env := by
  have h' := h.expandingAlias hs args hnew
  have hlength : env.expanding.length + 1 ≤ v.places.length := (h'.expanding.subperm h'.expanded).length_le
  show (_ - env.visiting.length) * _ + (v.places.length - (env.expanding.length + 1)) + 1 ≤
    (_ - env.visiting.length) * _ + (v.places.length - env.expanding.length)
  omega

theorem Inside.enteringType (hnew : site.typeName ∉ env.visiting) : v.Inside (env.enteringType site args) where
  names := ⟨hs.holds, (h.names.inside hs args).package, hs.label⟩
  visiting := List.nodup_cons.mpr ⟨hnew, h.visiting⟩
  visited := List.cons_subset.mpr ⟨hs.typeName_mem, h.visited⟩
  expanding := List.nodup_nil
  expanded := List.nil_subset _

theorem Inside.room_enteringType (hnew : site.typeName ∉ env.visiting) :
    v.room (env.enteringType site args) + 1 ≤ v.room env := by
  have h' := h.enteringType hs args hnew
  have hlength : env.visiting.length + 1 ≤ v.names.length := (h'.visiting.subperm h'.visited).length_le
  obtain ⟨rest, hrest⟩ : ∃ rest, v.names.length - env.visiting.length = rest + 1 :=
    ⟨v.names.length - env.visiting.length - 1, by omega⟩
  have hleft : v.names.length - (env.visiting.length + 1) = rest := by omega
  show (v.names.length - (env.visiting.length + 1)) * _ + (v.places.length - 0) + 1 ≤ _
  unfold room
  rw [hleft, hrest, Nat.add_one_mul]
  omega

end World

/-! ## Depth -/

/-- Where a declaration less can be entered there is room for the types inside one. -/
theorem depth_inside {room before bound k n : Nat} (hroom : room + 1 ≤ before)
    (hdepth : before * bound + (k + 1) ≤ n + 1) : room * bound + bound ≤ n := by
  have := Nat.mul_le_mul_right bound hroom
  rw [Nat.add_one_mul] at this
  omega

/-- Within more depth than there is room for, resolution finds the same whatever the depth, and what the recursion
finds that is not guarded. -/
theorem lockstep_resolver {v : World} {bound : Nat} (hpackages : ∀ p ∈ v.packages, p.FromTree v.tree)
    (hfiles : ∀ f ∈ v.sources, ∀ d ∈ f.types, d.type.Within bound) (guarded : Bool) {depth : Bool → Nat}
    {n k : Nat} (hdepth : ∀ i, n ≤ depth i) {env : Env} (henv : v.Inside env) {type : TypeExpr}
    (htype : type.Within k) (hn : v.room env * bound + k ≤ n) (mode : Mode) :
    Lockstep (Frame.equal v.memory guarded) (fun i => resolver v.tree (!i || guarded) (depth i) env type mode)
      fun t _ => Same t := by
  induction n generalizing depth env type mode k with
  | zero =>
    obtain rfl : k = 0 := by omega
    exact htype.elim
  | succ n ih =>
    obtain ⟨inner, rfl, hinner⟩ := exists_inner hdepth
    cases k with
    | zero => exact htype.elim
    | succ k =>
      have hfile : env.file ∈ v.sources := henv.names.holds.file_mem hpackages
      refine lockstep_resolver_succ (Frame.equal_loadsAlike v.tree) (Frame.equal_remembers v.memory guarded) hfile
        (P := v.SiteIn) (fun _ _ => henv.names.lookupNear) (fun _ hp _ _ => World.siteIn_of_mem hp)
        (fun site hs args => ?_) mode fun t ht mode => ih hinner henv (htype t ht) (by omega) mode
      have hwithin : site.decl.type.Within bound := hfiles _ (hs.holds.file_mem hpackages) _ hs.decl
      cases halias : site.decl.isAlias with
      | true =>
        by_cases hseen : site.place ∈ env.expanding
        · cases guarded with
          | false => exact .excuse (i := false) (fun _ => ⟨rfl, rfl, rfl⟩) (enterDeclared_expanding args halias hseen)
          | true =>
            simp only [Bool.or_true, enterDeclared_expanding args halias hseen]
            exact .stop _
        · simp only [enterDeclared_alias args halias fun _ => hseen]
          exact ih hinner (henv.expandingAlias hs args hseen) hwithin
            (depth_inside (henv.room_expandingAlias hs args hseen) hn) _
      | false =>
        exact lockstep_enterType args halias fun hnew => ih hinner (henv.enteringType hs args hnew) hwithin
          (depth_inside (henv.room_enteringType hs args hnew) hn) _

/-! ## Literals -/

namespace World

variable {v : World}

theorem inside_scope : v.Inside (v.scope.env v.beside) where
  names := ⟨.buffer, fun _ hp => List.mem_append_left _ (Option.mem_toList.mpr hp), List.mem_cons_self⟩
  visiting := List.nodup_nil
  visited := List.nil_subset _
  expanding := List.nodup_nil
  expanded := List.nil_subset _

theorem room_lt (env : Env) : v.room env < (v.places.length + 1) ^ 2 := by
  have hnames : v.names.length = v.places.length := List.length_map _
  have hle : v.room env ≤ v.places.length * (v.places.length + 1) + v.places.length := by
    unfold room
    rw [hnames]
    exact Nat.add_le_add (Nat.mul_le_mul_right _ (Nat.sub_le ..)) (Nat.sub_le ..)
  rw [Nat.pow_two, Nat.add_one_mul]
  omega

/-- No type in a file that can be met is deeper than some bound, and the bound for the depth leaves room for that many
types inside each declaration that can still be entered. -/
theorem Sound.exists_bound (h : v.Sound) : ∃ bound, (∀ f ∈ v.sources, f.Bounded bound) ∧
    ∀ env, v.room env * bound + bound ≤ nestingBound v.tree v.scope.file := by
  refine ⟨v.reach ^ 3, fun f hf => h.bounded hf, fun env => ?_⟩
  calc v.room env * v.reach ^ 3 + v.reach ^ 3 = (v.room env + 1) * v.reach ^ 3 := (Nat.add_one_mul ..).symm
    _ ≤ (v.places.length + 1) ^ 2 * v.reach ^ 3 := Nat.mul_le_mul_right _ (v.room_lt env)
    _ ≤ nestingBound v.tree v.scope.file := h.depth_le

/-- Two runs for a type before a literal. -/
theorem Sound.lockstep (h : v.Sound) (guarded : Bool) {depth : Bool → Nat}
    (hdepth : ∀ i, nestingBound v.tree v.scope.file ≤ depth i) {type : TypeExpr}
    (htype : ∃ l ∈ v.scope.file.literals, l.type = type) (mode : Mode) :
    Lockstep (Frame.equal v.memory guarded)
      (fun i => resolver v.tree (!i || guarded) (depth i) (v.scope.env v.beside) type mode) fun t _ => Same t := by
  obtain ⟨l, hl, rfl⟩ := htype
  obtain ⟨bound, hbounded, hroom⟩ := h.exists_bound
  exact lockstep_resolver (fun p => h.packages) (fun f hf => (hbounded f hf).declared) guarded hdepth inside_scope
    ((hbounded _ List.mem_cons_self).literal l hl) (hroom _) mode

end World

/-- The struct type before a literal, with at most `depth` types around one another. -/
def resolveStructWithin (tree : FileTree) (guarded : Bool) (depth : Nat) (scope : Scope) (type : TypeExpr) :
    Resolution ResolvedStruct :=
  packageBeside tree scope >>= fun package =>
    resolver tree guarded depth (scope.env package) type .root >>= structOf scope

theorem resolveStruct_eq_within (tree : FileTree) (scope : Scope) (type : TypeExpr) :
    resolveStruct tree scope type = resolveStructWithin tree true (nestingBound tree scope.file) scope type := by
  rw [resolveStruct_eq, resolveStructWithin]
  simp only [resolver_guarded]
  rfl

theorem packageBeside_fromTree {tree : FileTree} {scope : Scope} {s s' : Session} {package : Option Package}
    (h : packageBeside tree scope s = (.ok package, s')) (hs : s.packages.FromTree tree) :
    ∀ p ∈ package, p.FromTree tree := by
  unfold packageBeside at h
  cases hdir : scope.path.bind (·.parent) with
  | none =>
    rw [hdir] at h
    cases h
    simp
  | some dir =>
    rw [hdir] at h
    obtain ⟨⟨⟩, s₁, hpoll, hload⟩ := Resolution.bind_ok h
    cases hload
    have hs₁ : s₁.packages.FromTree tree := by
      have hkeeps := Resolution.KeepsSources.checkCancelled.step hs
      rwa [hpoll] at hkeeps
    exact (hs₁.loadDir dir).2

theorem resolver_eq {v : World} (h : v.Sound) {guarded : Bool} {n depth : Nat}
    (hn : nestingBound v.tree v.scope.file ≤ n) (hdepth : nestingBound v.tree v.scope.file ≤ depth)
    {type : TypeExpr} (htype : ∃ l ∈ v.scope.file.literals, l.type = type) {mode : Mode} {s : Session}
    (hmemory : (resolver v.tree true n (v.scope.env v.beside) type mode s).2.packages = v.memory)
    (hends : guarded = true ∨ (resolver v.tree true n (v.scope.env v.beside) type mode s).1 ≠ .error .endless) :
    resolver v.tree guarded depth (v.scope.env v.beside) type mode s =
      resolver v.tree true n (v.scope.env v.beside) type mode s := by
  have hdepths : ∀ i, nestingBound v.tree v.scope.file ≤ cond i depth n := by
    rintro (_ | _)
    · exact hn
    · exact hdepth
  exact (h.lockstep guarded hdepths htype mode (fun _ => s) rfl).eq hmemory hends

/-- Within the bound for the depth and beyond it resolution finds the same, and the recursion that is not guarded
finds it as well unless an alias leads back to itself. -/
theorem resolveStructWithin_eq {tree : FileTree} {scope : Scope} {type : TypeExpr} {s : Session}
    {guarded : Bool} {n depth : Nat} (hfile : ∃ text, scope.file = SourceFile.parse text)
    (htype : ∃ l ∈ scope.file.literals, l.type = type) (hs : s.packages.FromTree tree)
    (hn : nestingBound tree scope.file ≤ n) (hdepth : nestingBound tree scope.file ≤ depth)
    (hends : guarded = true ∨ (resolveStructWithin tree true n scope type s).1 ≠ .error .endless) :
    resolveStructWithin tree guarded depth scope type s = resolveStructWithin tree true n scope type s := by
  have hkeeps := (packageBeside_keepsSources tree scope).step hs
  unfold resolveStructWithin at hends ⊢
  cases hbeside : packageBeside tree scope s with
  | mk beside s₁ =>
    rw [hbeside] at hkeeps
    cases beside with
    | error e => rw [Resolution.bind_of_error hbeside, Resolution.bind_of_error hbeside]
    | ok package =>
      rw [Resolution.bind_of_ok hbeside] at hends
      rw [Resolution.bind_of_ok hbeside, Resolution.bind_of_ok hbeside]
      cases hrun : resolver tree true n (scope.env package) type .root s₁ with
      | mk result s₂ =>
        let v : World := ⟨tree, scope, package, s₂.packages⟩
        have hv : v.Sound := ⟨hfile, packageBeside_fromTree hbeside hs, by
          have hmemory := (resolveWithin_keepsSources tree n (scope.env package) type .root).step hkeeps
          rwa [← resolver_guarded, hrun] at hmemory⟩
        have hsame : resolver tree guarded depth (scope.env package) type .root s₁ = (result, s₂) := by
          rw [← hrun]
          refine resolver_eq hv hn hdepth htype (congrArg (·.2.packages) hrun) (hends.imp_right fun hends he => ?_)
          obtain rfl : result = .error .endless := (congrArg (·.1) hrun).symm.trans he
          exact hends (by rw [Resolution.bind_of_error hrun])
        cases result with
        | error e => rw [Resolution.bind_of_error hsame, Resolution.bind_of_error hrun]
        | ok t => rw [Resolution.bind_of_ok hsame, Resolution.bind_of_ok hrun]

end LiteralFill
