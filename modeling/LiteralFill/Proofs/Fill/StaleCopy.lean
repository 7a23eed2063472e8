import LiteralFill.Proofs.Fill.Edits
import LiteralFill.Proofs.Fill.Endless
import LiteralFill.Proofs.Fill.Filling
import LiteralFill.Proofs.Fill.Forwarding
import LiteralFill.Proofs.Packages.Copies

/-!
What the copy of the edited file on disk can do to a request. The package beside the file is read with the copy, but
types are not looked up in it; only the constants of the package are. So two trees that differ in the copy, in which
the constants have the same values, give the same answer, unless an import leads to the directory of the file.
-/

namespace LiteralFill

open Resolution (give stop forEach Grows)

/-! ## Two trees -/

/-- An import path that leads to a directory. -/
def PackageDb.LeadsTo (db : PackageDb) (t : FileTree) (d : Place) (path : String) : Prop :=
  ∃ dir, db.dirFor t path = some dir ∧ t.locate dir = some d

/-- Two trees with different copies of a file, in whose directory the constants have the same values. -/
structure Copies where
  tree : Bool → FileTree
  path : Path
  place : Place
  wellFormed : (tree false).WellFormed
  same : FileTree.SameBut place (tree false) (tree true)
  located : (tree false).locate path = some place
  constant : ∀ own, path.parent = some own → ∀ name, (tree true).constant own name = (tree false).constant own name

namespace Copies

variable (c : Copies) (db : PackageDb)

theorem isDirectory (i : Bool) (p : Path) : (c.tree i).isDirectory p = (c.tree false).isDirectory p := by
  cases i with
  | false => rfl
  | true => exact c.same.isDirectory p

/-- Packages that are remembered over the two trees: those beside the file declare the same outside of it, and all
others are the same. -/
structure Remembered (p : Bool → PackageDb) : Prop where
  roots (i : Bool) : (p i).roots = db.roots
  modules (i : Bool) : (p i).modules = db.modules
  byPath (i : Bool) : (p i).byPath = (p false).byPath
  elsewhere (i : Bool) {dir : Path} {d : Place} : (c.tree false).locate dir = some d → d ≠ c.place.dropLast →
    (p i).seenDir dir = (p false).seenDir dir
  beside {own : Path} : c.path.parent = some own → (∀ i, (p i).seenDir own = none) ∨
    ∃ package, PackagesTogether (some c.path) package ∧ ∀ i, (p i).seenDir own = some (package i)

variable {c db} {p : Bool → PackageDb} (h : c.Remembered db p)

theorem seenDir_append (db : PackageDb) (dir other : Path) (package : Option Package) :
    { db with byDir := db.byDir ++ [(dir, package)] : PackageDb }.seenDir other =
      (db.seenDir other).or (if dir == other then some package else none) := by
  unfold PackageDb.seenDir
  rw [List.find?_append, Option.map_or]
  congr 1
  cases hdir : dir == other <;> simp [hdir]

/-- The directory of the file is known by its components. -/
theorem eq_dropLast {own dir : Path} (hown : c.path.parent = some own) (hsame : (dir == own) = true) {d : Place}
    (hd : (c.tree false).locate dir = some d) : d = c.place.dropLast :=
  c.wellFormed.eq_dropLast c.located c.same.isDirectoryAt_place hown (Path.beq_iff.mp hsame) hd

include h

theorem Remembered.dirFor (i : Bool) (path : String) :
    (p i).dirFor (c.tree i) path = db.dirFor (c.tree false) path := by
  have hcandidates : (p i).candidates path = db.candidates path := by
    unfold PackageDb.candidates PackageDb.moduleCandidate
    rw [h.roots, h.modules]
  unfold PackageDb.dirFor
  rw [hcandidates]
  exact congrArg (fun f => (db.candidates path).find? f) (funext (c.isDirectory i))

theorem Remembered.importPathForDir (i : Bool) (dir : Path) :
    (p i).importPathForDir dir = db.importPathForDir dir := by
  unfold PackageDb.importPathForDir
  rw [h.roots, h.modules]

/-- What is remembered of one more directory: the same package, or those beside the file. -/
theorem Remembered.append {dir : Path} {q : Bool → Option Package}
    (hsame : (∀ i, q i = q false) ∨ c.path.parent = some dir)
    (hbeside : ∀ own, c.path.parent = some own → (dir == own) = true → PackagesTogether (some c.path) q) :
    c.Remembered db fun i => { p i with byDir := (p i).byDir ++ [(dir, q i)] } where
  roots := h.roots
  modules := h.modules
  byPath := h.byPath
  elsewhere i other d hd helse := by
    rw [seenDir_append, seenDir_append, h.elsewhere i hd helse]
    cases hdir : dir == other with
    | false => rfl
    | true =>
      rcases hsame with hsame | hown
      · rw [hsame i]
      · have hother : (other == dir) = true := Path.beq_iff.mpr (Path.beq_iff.mp hdir).symm
        exact absurd (eq_dropLast hown hother hd) helse
  beside {own} hown := by
    simp only [seenDir_append]
    rcases h.beside hown with hnone | ⟨package, hpackage, hsome⟩
    · cases hdir : dir == own with
      | false => exact .inl fun i => by simp [hnone i]
      | true => exact .inr ⟨q, hbeside own hown hdir, fun i => by simp [hnone i]⟩
    · exact .inr ⟨package, hpackage, fun i => by simp [hsome i]⟩

/-- A directory that is not the one of the file is read to the same package. -/
theorem Remembered.readDir {dir : Path} {d : Place} (hd : (c.tree false).locate dir = some d)
    (helse : d ≠ c.place.dropLast) (path : String) :
    (∀ i, ((p i).readDir (c.tree i) path dir).1 = ((p false).readDir (c.tree false) path dir).1) ∧
      c.Remembered db fun i => ((p i).readDir (c.tree i) path dir).2 := by
  have hread (i : Bool) : Package.read (c.tree i) path dir = Package.read (c.tree false) path dir := by
    cases i with
    | false => rfl
    | true =>
      rw [Package.read_eq, Package.read_eq, Package.filesIn_elsewhere c.same c.wellFormed]
      rw [hd, ne_eq, Option.some.injEq]
      exact helse
  cases hseen : (p false).seenDir dir with
  | some package =>
    have hrun (i : Bool) : (p i).readDir (c.tree i) path dir = (package, p i) := by
      unfold PackageDb.readDir
      rw [h.elsewhere i hd helse, hseen]
    simp only [hrun]
    exact ⟨fun _ => trivial, h⟩
  | none =>
    have hrun (i : Bool) : (p i).readDir (c.tree i) path dir = (Package.read (c.tree false) path dir,
        { p i with byDir := (p i).byDir ++ [(dir, Package.read (c.tree false) path dir)] }) := by
      unfold PackageDb.readDir
      rw [h.elsewhere i hd helse, hseen, hread i]
    simp only [hrun]
    exact ⟨fun _ => trivial, h.append (.inl fun _ => rfl) fun own hown hdir =>
      absurd (eq_dropLast hown hdir hd) helse⟩

/-- A package that is not the one of the file is loaded to the same. -/
theorem Remembered.load {path : String} (hpath : ¬ db.LeadsTo (c.tree false) c.place.dropLast path) :
    (∀ i, ((p i).load (c.tree i) path).1 = ((p false).load (c.tree false) path).1) ∧
      c.Remembered db fun i => ((p i).load (c.tree i) path).2 := by
  cases hseen : (p false).byPath.lookup path with
  | some package =>
    have hrun (i : Bool) : (p i).load (c.tree i) path = (package, p i) :=
      PackageDb.load_of_remembered _ (by rw [h.byPath i, hseen])
    simp only [hrun]
    exact ⟨fun _ => trivial, h⟩
  | none =>
    have hfound : (∀ i, ((p i).readFor (c.tree i) path).1 = ((p false).readFor (c.tree false) path).1) ∧
        c.Remembered db fun i => ((p i).readFor (c.tree i) path).2 := by
      cases hdir : db.dirFor (c.tree false) path with
      | none =>
        have hrun (i : Bool) := PackageDb.readFor_of_none ((h.dirFor i path).trans hdir)
        simp only [hrun]
        exact ⟨fun _ => trivial, h⟩
      | some dir =>
        have hrun (i : Bool) := PackageDb.readFor_of_some ((h.dirFor i path).trans hdir)
        simp only [hrun]
        have hdirectory : (c.tree false).isDirectory dir = true := List.find?_some hdir
        obtain ⟨d, hd⟩ := FileTree.exists_locate hdirectory
        exact h.readDir hd (fun hplace => hpath ⟨dir, hdir, hplace ▸ hd⟩) path
    have hnew (i : Bool) : (p i).byPath.lookup path = none := by rw [h.byPath i, hseen]
    simp only [fun i => PackageDb.load_of_new (hnew i), hfound.1]
    refine ⟨fun _ => trivial, hfound.2.roots, hfound.2.modules, fun i => ?_, hfound.2.elsewhere, hfound.2.beside⟩
    dsimp only
    rw [hfound.2.byPath i]

/-- The package beside the file is read to packages that declare the same outside of it. -/
theorem Remembered.loadDir {own : Path} (hown : c.path.parent = some own) :
    PackagesTogether (some c.path) (fun i => ((p i).loadDir (c.tree i) own).1) ∧
      c.Remembered db fun i => ((p i).loadDir (c.tree i) own).2 := by
  have hread : PackagesTogether (some c.path) fun i =>
      Package.read (c.tree i) ((db.importPathForDir own).getD "") own := by
    have htogether := c.same.packagesTogether c.wellFormed c.located hown (c.constant own hown)
      ((db.importPathForDir own).getD "")
    have htree : c.tree = fun i => cond i (c.tree true) (c.tree false) := funext fun i => by cases i <;> rfl
    rw [htree]
    exact htogether
  simp only [PackageDb.loadDir, h.importPathForDir]
  rcases h.beside hown with hnone | ⟨package, hpackage, hsome⟩
  · have hrun (i : Bool) : (p i).readDir (c.tree i) ((db.importPathForDir own).getD "") own =
        (Package.read (c.tree i) ((db.importPathForDir own).getD "") own, { p i with
          byDir := (p i).byDir ++ [(own, Package.read (c.tree i) ((db.importPathForDir own).getD "") own)] }) := by
      unfold PackageDb.readDir
      rw [hnone i]
    simp only [hrun]
    exact ⟨hread, h.append (.inr hown) fun _ _ _ => hread⟩
  · have hrun (i : Bool) : (p i).readDir (c.tree i) ((db.importPathForDir own).getD "") own = (package i, p i) := by
      unfold PackageDb.readDir
      rw [hsome i]
    simp only [hrun]
    exact ⟨hpackage, h⟩

end Copies

/-! ## Steps -/

/-- Two runs over the two trees; nothing is claimed once an import has led to the directory of the file. -/
def Frame.copies (c : Copies) (db : PackageDb) : Frame Bool where
  together s := c.Remembered db (fun i => (s i).packages) ∧
    ∀ i, (s i).cancel = (s false).cancel ∧ (s i).forwarded = (s false).forwarded
  lost s := ∃ path package, (s false).packages.byPath.lookup path = some package ∧
    db.LeadsTo (c.tree false) c.place.dropLast path
  excused _ _ _ := False
  lost_grows hg := fun ⟨path, package, hpath, hleads⟩ => ⟨path, package, (hg false).packages.byPath hpath, hleads⟩

namespace Copies

variable {c : Copies} {db : PackageDb} {α β : Type}

/-- The cancel flag is read alike. -/
theorem together_poll {s : Bool → Session} (h : (Frame.copies c db).together s) :
    (∀ i, (s i).poll.1 = (s false).poll.1) ∧ (Frame.copies c db).together fun i => (s i).poll.2 := by
  obtain ⟨hpackages, hsame⟩ := h
  have hpoll (i : Bool) : (s i).poll.1 = (s false).poll.1 ∧ (s i).poll.2.cancel = (s false).poll.2.cancel := by
    unfold Session.poll
    rw [(hsame i).1]
    cases (s false).cancel with
    | nil => exact ⟨rfl, (hsame i).1⟩
    | cons up rest => exact ⟨rfl, rfl⟩
  refine ⟨fun i => (hpoll i).1, ?_, fun i => ⟨(hpoll i).2, ?_⟩⟩
  · simp only [Session.poll_packages]
    exact hpackages
  · rw [Session.poll_forwarded, Session.poll_forwarded, (hsame i).2]

theorem lockstep_checkCancelled :
    Lockstep (Frame.copies c db) (fun _ => Resolution.checkCancelled) fun _ _ => True :=
  .checkCancelled (fun _ hs => ⟨_, fun i => (hs.2 i).1⟩) fun _ hs => (together_poll hs).2

/-- A look-up among the packages that answers together, or that leads to the directory of the file. -/
theorem lockstep_ask {f : Bool → PackageDb → α × PackageDb} {Q : (Bool → α) → Prop}
    (hgrows : ∀ i (db : PackageDb), db.GrowsTo (f i db).2)
    (h : ∀ p, c.Remembered db p → (∃ path package, (f false (p false)).2.byPath.lookup path = some package ∧
        db.LeadsTo (c.tree false) c.place.dropLast path) ∨
      Q (fun i => (f i (p i)).1) ∧ c.Remembered db fun i => (f i (p i)).2) :
    Lockstep (Frame.copies c db) (fun i => Resolution.ask (f i)) fun a _ => Q a := by
  rintro s ⟨hpackages, hsame⟩
  rcases h _ hpackages with hlost | ⟨hanswer, hafter⟩
  · exact .lost hlost
  · have hsteps (i : Bool) : (s i).GrowsTo (Resolution.ask (f i) (s i)).2 := (Grows.ask (hgrows i)).step (s i)
    have htogether : (Frame.copies c db).together fun i => (Resolution.ask (f i) (s i)).2 := ⟨hafter, hsame⟩
    exact .answered htogether hsteps hanswer fun _ => rfl

theorem lockstep_load (path : String) :
    Lockstep (Frame.copies c db) (fun i => Resolution.load (c.tree i) path) fun a _ => Same a := by
  have hgrows (i : Bool) := PackageDb.load_growsTo (c.tree i) path
  refine lockstep_checkCancelled.bind (fun i _ => .ask (hgrows i)) fun _ s₁ _ _ => ?_
  refine (lockstep_ask hgrows fun p hp => ?_).after s₁
  by_cases hleads : db.LeadsTo (c.tree false) c.place.dropLast path
  · exact .inl ⟨path, _, PackageDb.load_remembered (c.tree false) path (p false), hleads⟩
  · obtain ⟨hsame, hafter⟩ := hp.load hleads
    exact .inr ⟨⟨_, funext hsame⟩, hafter⟩

theorem lockstep_loadDir {own : Path} (hown : c.path.parent = some own) :
    Lockstep (Frame.copies c db) (fun i => Resolution.loadDir (c.tree i) own)
      fun a _ => PackagesTogether (some c.path) a := by
  have hgrows (i : Bool) := PackageDb.loadDir_growsTo (c.tree i) own
  refine lockstep_checkCancelled.bind (fun i _ => .ask (hgrows i)) fun _ s₁ _ _ => ?_
  exact (lockstep_ask hgrows fun p hp => .inr (hp.loadDir hown)).after s₁

theorem lockstep_firstOf (f : ImportSpec → Package → Option α) (imports : List ImportSpec) :
    Lockstep (Frame.copies c db) (fun i => Resolution.firstOf (c.tree i) f imports) fun a _ => Same a := by
  induction imports with
  | nil => exact .give fun _ _ => ⟨none, rfl⟩
  | cons import' rest ih =>
    refine (lockstep_load import'.path).bind (fun i package => ?_) ?_
    · split
      · exact .give _
      · exact .firstOf ..
    · rintro _ s₁ - ⟨package, rfl⟩
      dsimp only
      cases package.bind (f import') with
      | some a => exact .give fun _ _ => ⟨some a, rfl⟩
      | none => exact ih.after s₁

/-! ## Names -/

/-- Declarations that are the same but for the packages they stand in. -/
def SitesTogether (c : Copies) (site : Bool → Site) : Prop :=
  ∃ (one : Site) (package : Bool → Option Package), site = (fun i => { one with package := package i }) ∧
    ((∀ i, package i = none) ∨ (∀ i, (package i).isSome) ∧ PackagesTogether (some c.path) package)

theorem SitesTogether.same (c : Copies) (site : Site) : c.SitesTogether fun _ => site := by
  refine ⟨site, fun _ => site.package, rfl, ?_⟩
  cases hpackage : site.package with
  | none => exact .inl fun _ => rfl
  | some p => exact .inr ⟨fun _ => rfl, .same _ _⟩

/-- Inside declarations that are the same but for their packages, so are the names. -/
theorem inside_together {env : Env} {package : Bool → Option Package}
    (hpackage : PackagesTogether (some c.path) package) {site : Bool → Site} (hsite : c.SitesTogether site) :
    ∃ (one : Site) (inner : Bool → Option Package), PackagesTogether (some c.path) inner ∧
      (∀ i, (site i).decl = one.decl ∧ (site i).place = one.place ∧ (site i).typeName = one.typeName) ∧
      (∀ i args, Env.expandingAlias { env with package := package i } (site i) args =
        { env.expandingAlias one args with package := inner i }) ∧
      ∀ i args, Env.enteringType { env with package := package i } (site i) args =
        { env.enteringType one args with package := inner i } := by
  obtain ⟨one, package', rfl, hpackage'⟩ := hsite
  refine ⟨one, fun i => (package' i).orElse fun _ => package i, ?_, fun i => ⟨rfl, rfl, rfl⟩, fun i args => rfl,
    fun i args => rfl⟩
  rcases hpackage' with hnone | ⟨hsome, hpackage'⟩
  · simpa [hnone] using hpackage
  · have hfirst (i : Bool) : ((package' i).orElse fun _ => package i) = package' i := by
      obtain ⟨p, hp⟩ := Option.isSome_iff_exists.mp (hsome i)
      simp [hp]
    simpa only [hfirst] using hpackage'

theorem lookupNear_together {env : Env} (hskip : env.skip = some c.path) {package : Bool → Option Package}
    (hpackage : PackagesTogether (some c.path) package) (name : String) :
    (∀ i, Env.lookupNear { env with package := package i } name = none) ∨
      ∃ found : Bool → Found, (∀ i, Env.lookupNear { env with package := package i } name = some (found i)) ∧
        ∀ s, FoundTogether Same (fun site _ => c.SitesTogether site) (fun i => some (found i)) s := by
  unfold Env.lookupNear
  dsimp only
  rw [hskip]
  cases env.arguments.lookup name with
  | some t => exact .inr ⟨fun _ => .type t, fun _ => rfl, fun s => .type s ⟨t, rfl⟩⟩
  | none =>
    cases env.offset.bind (env.file.localType name) with
    | some decl => exact .inr ⟨fun _ => env.siteHere decl true, fun _ => rfl, fun _ => .declaration (.same ..)⟩
    | none =>
      cases env.file.packageType name with
      | some decl => exact .inr ⟨fun _ => env.siteHere decl false, fun _ => rfl, fun _ => .declaration (.same ..)⟩
      | none =>
        rcases hpackage.site name with hnone | ⟨site, names, hsite⟩
        · simp only [hnone]
          cases predeclaredType name with
          | none => exact .inl fun _ => rfl
          | some t => exact .inr ⟨fun _ => .type t, fun _ => rfl, fun s => .type s ⟨t, rfl⟩⟩
        · simp only [hsite]
          refine .inr ⟨fun i => .declaration { site with package := package i, path := env.path, name := env.name },
            fun _ => rfl, fun _ => .declaration ⟨{ site with path := env.path, name := env.name }, package, rfl, ?_⟩⟩
          refine .inr ⟨fun i => ?_, hpackage⟩
          obtain ⟨p, hp, -⟩ := Option.bind_eq_some_iff.mp (hsite i)
          rw [hp]
          rfl

theorem lockstep_lookup {env : Env} (hskip : env.skip = some c.path) {package : Bool → Option Package}
    (hpackage : PackagesTogether (some c.path) package) (name : String) :
    Lockstep (Frame.copies c db) (fun i => Env.lookup (c.tree i) { env with package := package i } name)
      (FoundTogether Same fun site _ => c.SitesTogether site) := by
  unfold Env.lookup
  rcases lookupNear_together hskip hpackage name with hnone | ⟨found, hfound, htogether⟩
  · simp only [hnone]
    refine (lockstep_firstOf _ _).bind (fun _ _ => .give _) ?_
    rintro _ s₁ - ⟨site, rfl⟩
    cases site with
    | none => exact .give fun s _ => .none s
    | some site => exact .give fun _ _ => .declaration (.same ..)
  · simp only [hfound]
    exact .give fun s _ => htogether s

theorem lockstep_importedSite (name : String) (imported : Option (String × String)) :
    Lockstep (Frame.copies c db) (fun i => importedSite (c.tree i) name imported)
      (LiteralFill.SitesTogether fun site _ => c.SitesTogether site) := by
  unfold importedSite
  cases imported with
  | none => exact .give fun s _ => .none s
  | some i =>
    refine (lockstep_load _).bind (fun _ _ => .give _) ?_
    rintro _ s₁ - ⟨package, rfl⟩
    dsimp only
    cases package.bind (siteIn · name none) with
    | none => exact .give fun s _ => .none s
    | some site => exact .give fun _ _ => .some (.same ..)

theorem lockstep_importNamed (env : Env) (qualifier : String) :
    Lockstep (Frame.copies c db) (fun i => env.importNamed (c.tree i) qualifier) fun a _ => Same a := by
  unfold Env.importNamed
  cases env.file.importByName qualifier with
  | some i => exact .give fun _ _ => ⟨_, rfl⟩
  | none => exact lockstep_firstOf _ _

/-! ## Types -/

/-- Over the two trees a type stands for the same. -/
theorem lockstep_resolveWithin (depth : Nat) {env : Env} (hskip : env.skip = some c.path)
    {package : Bool → Option Package} (hpackage : PackagesTogether (some c.path) package) (type : TypeExpr)
    (mode : Mode) :
    Lockstep (Frame.copies c db) (fun i => resolveWithin (c.tree i) depth { env with package := package i } type mode)
      fun t _ => Same t := by
  induction depth generalizing env package type mode with
  | zero => exact .stop .endless
  | succ depth ih =>
    have hstep : InStep (Frame.copies c db) Same (fun site _ => c.SitesTogether site) (fun _ => True) c.tree
        (fun i => resolveWithin (c.tree i) depth) (fun i => { env with package := package i }) := {
      grows := fun i => grows_resolveWithin (c.tree i) depth
      types := typesTogether_same.toFormsTogether
      name := ⟨(env.path, env.name), rfl⟩
      length := fun l => by
        cases l with
        | number n => exact ⟨_, rfl⟩
        | ellipsis => exact ⟨_, rfl⟩
        | expression text =>
          obtain ⟨n, hn⟩ := hpackage.constant text
          unfold Env.arrayLength
          simp only [hn]
          exact ⟨_, rfl⟩
      lookup := lockstep_lookup hskip hpackage
      importNamed := fun q => (lockstep_importNamed env q).weaken fun _ _ _ ⟨b, hb⟩ => ⟨b, trivial, hb⟩
      imported := fun name imported _ => lockstep_importedSite name imported
      site := by
        rintro _ _ ⟨one, package', rfl, -⟩
        exact ⟨(one.path, one.name), rfl⟩
      enter := by
        intro site s args _ hsite hargs
        refine Lockstep.after ?_ s
        obtain ⟨args', hargs'⟩ := Same.of_forall hargs
        obtain ⟨one, inner, hinner, hone, halias, htype⟩ := inside_together hpackage hsite
        have henter (i : Bool) : enterDeclared (resolveWithin (c.tree i) depth) { env with package := package i }
            (site i) (args.map (· i)) =
              if one.decl.isAlias then
                if env.expanding.contains one.place then stop .endless
                else resolveWithin (c.tree i) depth { env.expandingAlias one args' with package := inner i }
                  one.decl.type .value
              else if env.visiting.contains one.typeName then give (.unseen one.typeName)
              else resolveWithin (c.tree i) depth { env.enteringType one args' with package := inner i }
                one.decl.type .value >>= fun underlying => give (.named one.typeName args' underlying) := by
          unfold enterDeclared
          rw [congrFun hargs' i, halias, htype, (hone i).1, (hone i).2.1, (hone i).2.2]
        simp only [henter]
        split
        · split
          · exact .stop _
          · exact @ih (env.expandingAlias one args') hskip inner hinner one.decl.type .value
        · split
          · exact .give fun _ _ => ⟨_, rfl⟩
          · refine (@ih (env.enteringType one args') hskip inner hinner one.decl.type .value).bind
              (fun _ _ => .give _) ?_
            rintro _ _ - ⟨t, rfl⟩
            exact .give fun _ _ => ⟨_, rfl⟩ }
    exact hstep.form type mode fun t _ mode => ih hskip hpackage t mode

/-! ## Literals -/

theorem lockstep_packageBeside {scope : Scope} (hscope : scope.path = some c.path) :
    Lockstep (Frame.copies c db) (fun i => packageBeside (c.tree i) scope)
      fun a _ => PackagesTogether (some c.path) a := by
  unfold packageBeside
  cases hown : scope.path.bind (·.parent) with
  | none => exact .give fun _ _ => .same _ none
  | some own =>
    rw [hscope] at hown
    exact lockstep_loadDir hown

/-- Sessions over the two trees that remember nothing but packages from them. -/
def Together (c : Copies) (db : PackageDb) (s : Bool → Session) : Prop :=
  (Frame.copies c db).together s ∧ ∀ i, (s i).packages.FromTree (c.tree i)

/-- Over the two trees a literal is of the same struct type. -/
theorem ends_resolveStruct {scope : Scope} (hscope : scope.path = some c.path)
    (hfile : ∃ text, scope.file = SourceFile.parse text) {type : TypeExpr}
    (htype : ∃ l ∈ scope.file.literals, l.type = type) {s : Bool → Session} (hs : c.Together db s) :
    (Frame.copies c db).Ends (fun a _ => Same a) s fun i => resolveStruct (c.tree i) scope type (s i) := by
  obtain ⟨depth, hdepth⟩ : ∃ depth, ∀ i, nestingBound (c.tree i) scope.file ≤ depth :=
    ⟨max (nestingBound (c.tree false) scope.file) (nestingBound (c.tree true) scope.file), fun i => by
      cases i with
      | false => exact Nat.le_max_left ..
      | true => exact Nat.le_max_right ..⟩
  have hsame (i : Bool) : resolveStruct (c.tree i) scope type (s i) =
      resolveStructWithin (c.tree i) true depth scope type (s i) := by
    rw [resolveStruct_eq_within]
    exact (resolveStructWithin_eq hfile htype (hs.2 i) (Nat.le_refl _) (hdepth i) (.inl rfl)).symm
  simp only [hsame]
  unfold resolveStructWithin
  refine (lockstep_packageBeside hscope).bind (fun i _ => .bind (grows_resolver ..) fun _ => grows_structOf ..)
    (fun package s₁ _ hpackage => ?_) s hs.1
  simp only [resolver_guarded]
  refine ((@lockstep_resolveWithin c db depth (scope.env none) hscope package hpackage type .root).after s₁).bind
    (fun _ _ => grows_structOf ..) ?_
  rintro _ s₂ - ⟨t, rfl⟩
  unfold structOf
  dsimp only
  cases ResolvedStruct.ofType? t (decidingPath scope t) with
  | some resolved => exact .give fun _ _ => ⟨resolved, rfl⟩
  | none => exact .stop _

end Copies

/-! ## Requests -/

namespace Copies

variable {c : Copies} {db : PackageDb} {α : Type}

/-- Answers that are the same, from sessions that belong together, unless an import has led to the directory of the
file. -/
def Agree (c : Copies) (db : PackageDb) (x : Bool → α × Session) : Prop :=
  (Frame.copies c db).lost (fun i => (x i).2) ∨ (∀ i, (x i).1 = (x false).1) ∧ c.Together db fun i => (x i).2

theorem Agree.andThen {β : Type} {x : Bool → α × Session} {f : Bool → α → Session → β × Session}
    (hx : c.Agree db x) (hgrows : ∀ a (s : Session), s.packages.GrowsTo (f false a s).2.packages)
    (hf : ∀ a s, c.Together db s → c.Agree db fun i => f i a (s i)) :
    c.Agree db fun i => f i (x i).1 (x i).2 := by
  rcases hx with ⟨path, package, hload, hleads⟩ | ⟨hsame, hs⟩
  · exact .inl ⟨path, package, (hgrows _ _).byPath hload, hleads⟩
  · have hx : (fun i => f i (x i).1 (x i).2) = fun i => f i (x false).1 (x i).2 := funext fun i => by rw [hsame i]
    rw [hx]
    exact hf _ _ hs

theorem Together.poll {s : Bool → Session} (h : c.Together db s) :
    (∀ i, (s i).poll.1 = (s false).poll.1) ∧ c.Together db fun i => (s i).poll.2 := by
  obtain ⟨hpoll, htogether⟩ := together_poll h.1
  refine ⟨hpoll, htogether, fun i => ?_⟩
  rw [Session.poll_packages]
  exact h.2 i

/-- Sessions that belong together are one session over their packages. -/
theorem Together.eq_over {s : Bool → Session} (h : c.Together db s) (i : Bool) :
    s i = (s false).over (s i).packages (s i).forwarded := by
  have hcancel := (h.1.2 i).1
  cases hs : s i with
  | mk packages cancel forwarded =>
    rw [hs] at hcancel
    rw [show cancel = (s false).cancel from hcancel]
    rfl

theorem agree_fillResolved (r : FillRequest) (options : FillOptions) (literal : CompositeLiteral)
    (resolved : ResolvedStruct) {s : Bool → Session} (hs : c.Together db s) :
    c.Agree db fun i => fillResolved r options literal resolved (s i) := by
  have hrun (i : Bool) : fillResolved r options literal resolved (s i) =
      ((fillResolved r options literal resolved (s false)).1,
        (fillResolved r options literal resolved (s false)).2.over (s i).packages (s i).forwarded) := by
    rw [hs.eq_over i, fillResolved_over]
    rfl
  have hafter : (fun i => (fillResolved r options literal resolved (s i)).2) = fun i =>
      (fillResolved r options literal resolved (s false)).2.over (s i).packages (s i).forwarded :=
    funext fun i => congrArg (·.2) (hrun i)
  refine .inr ⟨fun i => congrArg (·.1) (hrun i), ?_⟩
  rw [hafter]
  exact ⟨⟨hs.1.1, fun i => ⟨rfl, (hs.1.2 i).2⟩⟩, hs.2⟩

theorem agree_fillLiteral {r : FillRequest} (hpath : r.path = some c.path)
    (hfile : ∃ text, r.file = SourceFile.parse text) (options : FillOptions) {literal : CompositeLiteral}
    (hliteral : literal ∈ r.file.literals) {s : Bool → Session} (hs : c.Together db s) :
    c.Agree db fun i => fillLiteral (resolveStruct (c.tree i)) r options literal (s i) := by
  obtain ⟨hflag, hpolled⟩ := hs.poll
  have hrun (i : Bool) : fillLiteral (resolveStruct (c.tree i)) r options literal (s i) =
      fillPolled (resolveStruct (c.tree i)) r options literal (s false).poll.1 (s i).poll.2 := by
    rw [fillLiteral_eq, hflag]
  simp only [hrun]
  cases (s false).poll.1 with
  | true => exact .inr ⟨fun _ => rfl, hpolled⟩
  | false =>
    simp only [fillPolled]
    have hsound (i : Bool) := (resolveStruct_keepsSources (c.tree i)
      ⟨r.file, r.path, r.packagePath, literal.lbrace⟩ literal.type).step (hpolled.2 i)
    cases @ends_resolveStruct c db ⟨r.file, r.path, r.packagePath, literal.lbrace⟩ hpath hfile literal.type
        ⟨literal, hliteral, rfl⟩ _ hpolled with
    | lost hlost =>
      obtain ⟨path, package, hload, hleads⟩ := hlost
      refine .inl ⟨path, package, ?_, hleads⟩
      dsimp only at hload ⊢
      rw [fillFound_packages]
      exact hload
    | excused he => exact he.elim
    | @stopped e s' hs' _ hstop =>
      simp only [hstop] at hsound ⊢
      exact .inr ⟨fun _ => rfl, hs', hsound⟩
    | @answered a s' hs' _ ha hanswer =>
      obtain ⟨resolved, rfl⟩ := ha
      simp only [hanswer] at hsound ⊢
      exact agree_fillResolved r options literal resolved ⟨hs', hsound⟩

theorem agree_fillLiterals {r : FillRequest} (hpath : r.path = some c.path)
    (hfile : ∃ text, r.file = SourceFile.parse text) (options : FillOptions) {literals : List CompositeLiteral}
    (hliterals : ∀ l ∈ literals, l ∈ r.file.literals) {s : Bool → Session} (hs : c.Together db s) :
    c.Agree db fun i => fillLiterals (resolveStruct (c.tree i)) r options literals (s i) := by
  have hresolve (i : Bool) := grows_resolveStruct (c.tree i)
  induction literals generalizing s with
  | nil => exact .inr ⟨fun _ => rfl, hs⟩
  | cons literal rest ih =>
    simp only [fillLiterals_cons]
    refine (agree_fillLiteral hpath hfile options (hliterals literal List.mem_cons_self) hs).andThen
      (f := fun i => fillRest (resolveStruct (c.tree i)) r options rest) (fillRest_packages (hresolve false) r options rest)
      fun outcome s hs => ?_
    have hagree := ih (fun l hl => hliterals l (List.mem_cons_of_mem _ hl)) hs
    cases outcome with
    | stopped outcome => exact .inr ⟨fun _ => rfl, hs⟩
    | leftAlone => exact hagree
    | edited edit paths =>
      exact hagree.andThen (f := fun _ outcome s => (outcomeBehind edit paths outcome, s)) (fun _ _ => .refl _)
        fun _ _ hs => .inr ⟨fun _ => rfl, hs⟩

end Copies

/-- The copy of the edited file on disk decides nothing but the constants of its package: over two trees that differ
in the copy, and in which the constants of its directory have the same values, a request with new sessions has the
same answer, if no import that is loaded leads to that directory. -/
theorem fill_staleCopy {tree tree' : FileTree} {path : Path} {place : Place} {r : FillRequest}
    {options : FillOptions} {s : Session} (hwell : tree.WellFormed) (hplace : tree.locate path = some place)
    (hsame : FileTree.SameBut place tree tree') (hpath : r.path = some path)
    (hfile : ∃ text, r.file = SourceFile.parse text) (hnew : s.packages.byPath = [] ∧ s.packages.byDir = [])
    (himports : ∀ e ∈ (fill (resolveStruct tree) r options s).2.packages.byPath,
      ¬ s.packages.LeadsTo tree place.dropLast e.1)
    (hconstants : ∀ dir, path.parent = some dir → ∀ name, tree'.constant dir name = tree.constant dir name) :
    (fill (resolveStruct tree') r options s).1 = (fill (resolveStruct tree) r options s).1 := by
  cases hlocate : LiteralFill.locate r.file r.target with
  | error e =>
    unfold fill
    rw [hlocate]
  | ok literals =>
    have hliterals : ∀ l ∈ literals, l ∈ r.file.literals := by
      obtain ⟨text, htext⟩ := hfile
      rw [htext] at hlocate ⊢
      exact (SourceFile.locate_apart hlocate).1
    let c : Copies := ⟨fun i => cond i tree' tree, path, place, hwell, hsame, hplace, hconstants⟩
    have hseen (dir : Path) : s.packages.seenDir dir = none := by simp [PackageDb.seenDir, hnew.2]
    have htogether : c.Together s.packages fun _ => s :=
      ⟨⟨⟨fun _ => rfl, fun _ => rfl, fun _ => rfl, fun _ _ _ _ _ => rfl, fun _ => .inl fun _ => hseen _⟩,
        fun _ => ⟨rfl, rfl⟩⟩, fun _ => ⟨by simp [hnew.1], by simp [hnew.2]⟩⟩
    obtain ⟨hanswer, hpackages⟩ := fill_of_locate hlocate (resolveStruct tree) options s
    obtain ⟨hanswer', -⟩ := fill_of_locate hlocate (resolveStruct tree') options s
    rcases Copies.agree_fillLiterals hpath hfile options hliterals htogether with hlost | ⟨hagree, -⟩
    · obtain ⟨path', package, hload, hleads⟩ := hlost
      rw [hpackages] at himports
      obtain ⟨l₁, l₂, hl, -⟩ := List.lookup_eq_some_iff.mp hload
      refine absurd hleads (himports (path', package) ?_)
      show _ ∈ (fillLiterals (resolveStruct tree) r options literals s).2.packages.byPath
      rw [show (fillLiterals (resolveStruct tree) r options literals s).2.packages.byPath = _ from hl]
      simp
    · rw [hanswer, hanswer']
      exact congrArg _ (hagree true)

/-- A tree with one file of a package. -/
def treeOfCopy (copy : String) : FileTree :=
  ⟨[(["p"], .directory), (["p", "a.go"], .file (encodeText copy))], []⟩

theorem treeOfCopy_wellFormed (copy : String) : (treeOfCopy copy).WellFormed where
  names := by
    intro e he name hname
    simp only [treeOfCopy, List.mem_cons, List.not_mem_nil, or_false] at he
    rcases he with rfl | rfl <;> simp only [List.mem_cons, List.not_mem_nil, or_false] at hname
    · rw [hname]
      decide
    · rcases hname with rfl | rfl <;> decide
  around := by
    intro e he
    simp only [treeOfCopy, List.mem_cons, List.not_mem_nil, or_false] at he
    rcases he with rfl | rfl <;> rfl

theorem treeOfCopy_sameBut (copy copy' : String) :
    FileTree.SameBut ["p", "a.go"] (treeOfCopy copy) (treeOfCopy copy') where
  current := rfl
  places := rfl
  elsewhere other hother := by
    have hne : (other == ["p", "a.go"]) = false := by simpa using hother
    simp [FileTree.entryAt, treeOfCopy, List.lookup_cons, hne]
  file := ⟨encodeText copy, encodeText copy', rfl, rfl⟩

/-- A request for the file of that package, whose text is not saved yet. -/
def unsavedRequest : FillRequest :=
  ⟨SourceFile.parse "package p\ntype T struct{ X int }\nvar x = T{}\n".toList, some ⟨"p/a.go"⟩, "p", .offset 42⟩

/-- The types that a copy declares do not matter. -/
theorem fill_staleCopy_types :
    let tree := treeOfCopy "package p\ntype T struct{ A int }\n"
    let tree' := treeOfCopy "package p\ntype T struct{ B string }\n"
    tree.WellFormed ∧ FileTree.SameBut ["p", "a.go"] tree tree' ∧
      (fill (resolveStruct tree') unsavedRequest .standard (.ofPackages .empty)).1 =
        (fill (resolveStruct tree) unsavedRequest .standard (.ofPackages .empty)).1 := by
  intro tree tree'
  have hloaded : (fill (resolveStruct tree) unsavedRequest .standard (.ofPackages .empty)).2.packages.byPath = [] :=
    List.isEmpty_iff.mp (by decide +kernel)
  have hparent : (Path.mk "p/a.go").parent = some ⟨"p"⟩ := rfl
  have hconsts : ∀ t ∈ [tree, tree'], ((Package.filesIn t ⟨"p"⟩).flatMap (·.source.consts)).isEmpty = true := by
    decide +kernel
  have hnone (t : FileTree) (ht : t ∈ [tree, tree']) (name : String) : t.constant ⟨"p"⟩ name = none :=
    FileTree.constant_eq_none (List.flatMap_eq_nil_iff.mp (List.isEmpty_iff.mp (hconsts t ht))) name
  have hplace : tree.locate ⟨"p/a.go"⟩ = some ["p", "a.go"] := by decide +kernel
  refine ⟨treeOfCopy_wellFormed _, treeOfCopy_sameBut .., fill_staleCopy (treeOfCopy_wellFormed _) hplace
    (treeOfCopy_sameBut ..) rfl ⟨_, rfl⟩ ⟨rfl, rfl⟩ ?_ ?_⟩
  · rw [hloaded]
    simp
  · rintro dir hdir name
    rw [hparent, Option.some.injEq] at hdir
    rw [← hdir, hnone tree' (by simp), hnone tree (by simp)]

end LiteralFill
