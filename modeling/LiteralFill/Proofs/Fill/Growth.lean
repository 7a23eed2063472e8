import LiteralFill.Proofs.Fill.Steps

/-!
What a session remembers it goes on remembering. Loading a package adds to what is remembered and changes none
of it, and reading the cancel flag uses up an answer; resolution does nothing else, so a session after any part
of it has grown from the one before.
-/

namespace LiteralFill

/-! ## Sessions -/

namespace PackageDb

/-- What one database remembers another one remembers as well, over the same roots and modules. -/
structure GrowsTo (db db' : PackageDb) : Prop where
  roots : db'.roots = db.roots
  modules : db'.modules = db.modules
  byPath {path : String} {package : Option Package} :
    db.byPath.lookup path = some package → db'.byPath.lookup path = some package
  byDir {dir : Path} {package : Option Package} : db.seenDir dir = some package → db'.seenDir dir = some package

namespace GrowsTo

theorem refl (db : PackageDb) : db.GrowsTo db := ⟨rfl, rfl, id, id⟩

theorem trans {db₁ db₂ db₃ : PackageDb} (h : db₁.GrowsTo db₂) (h' : db₂.GrowsTo db₃) : db₁.GrowsTo db₃ :=
  ⟨h'.roots.trans h.roots, h'.modules.trans h.modules, fun hp => h'.byPath (h.byPath hp),
    fun hp => h'.byDir (h.byDir hp)⟩

end GrowsTo

theorem readDir_growsTo (tree : FileTree) (path : String) (dir : Path) (db : PackageDb) :
    db.GrowsTo (db.readDir tree path dir).2 := by
  unfold readDir
  split
  · exact .refl db
  · refine ⟨rfl, rfl, id, fun h => ?_⟩
    unfold seenDir at h ⊢
    obtain ⟨e, he, rfl⟩ := Option.map_eq_some_iff.mp h
    rw [List.find?_append, he]
    rfl

theorem loadDir_growsTo (tree : FileTree) (dir : Path) (db : PackageDb) :
    db.GrowsTo (db.loadDir tree dir).2 := readDir_growsTo ..

/-- What is found in a directory is remembered. -/
theorem readDir_remembered (tree : FileTree) (path : String) (dir : Path) (db : PackageDb) :
    (db.readDir tree path dir).2.seenDir dir = some (db.readDir tree path dir).1 := by
  unfold readDir
  split
  · assumption
  · next hnone =>
    unfold seenDir at hnone ⊢
    have hself : (dir == dir) = true := beq_self_eq_true dir.components
    rw [List.find?_append, Option.map_eq_none_iff.mp hnone]
    simp [hself]

/-- The package in the directory of a path, if there is one. -/
def readFor (tree : FileTree) (path : String) (db : PackageDb) : Option Package × PackageDb :=
  ((db.dirFor tree path).map fun dir => db.readDir tree path dir).getD (none, db)

theorem readFor_of_none {tree : FileTree} {path : String} {db : PackageDb} (h : db.dirFor tree path = none) :
    db.readFor tree path = (none, db) := by
  unfold readFor
  rw [h]
  rfl

theorem readFor_of_some {tree : FileTree} {path : String} {db : PackageDb} {dir : Path}
    (h : db.dirFor tree path = some dir) : db.readFor tree path = db.readDir tree path dir := by
  unfold readFor
  rw [h]
  rfl

/-- A path that is remembered is not loaded again. -/
theorem load_of_remembered (tree : FileTree) {path : String} {db : PackageDb} {package : Option Package}
    (h : db.byPath.lookup path = some package) : db.load tree path = (package, db) := by
  unfold load
  rw [h]

/-- A path that is not remembered is that of a directory, or of a package that comes with the library. -/
theorem load_of_new {tree : FileTree} {path : String} {db : PackageDb} (h : db.byPath.lookup path = none) :
    db.load tree path = ((db.readFor tree path).1.orElse fun _ => Package.standard path,
      { (db.readFor tree path).2 with byPath := (db.readFor tree path).2.byPath ++
          [(path, (db.readFor tree path).1.orElse fun _ => Package.standard path)] }) := by
  unfold load
  simp only [h]
  cases hdir : db.dirFor tree path with
  | none => rw [readFor_of_none hdir]
  | some dir => rw [readFor_of_some hdir]

theorem load_growsTo (tree : FileTree) (path : String) (db : PackageDb) :
    db.GrowsTo (db.load tree path).2 := by
  cases hseen : db.byPath.lookup path with
  | some package =>
    rw [load_of_remembered tree hseen]
    exact .refl db
  | none =>
    have hread : db.GrowsTo (db.readFor tree path).2 := by
      cases hdir : db.dirFor tree path with
      | none =>
        rw [readFor_of_none hdir]
        exact .refl db
      | some dir =>
        rw [readFor_of_some hdir]
        exact readDir_growsTo ..
    rw [load_of_new hseen]
    exact hread.trans ⟨rfl, rfl, fun h => List.lookup_append.trans (Option.or_eq_some_iff.mpr (.inl h)), id⟩

/-- What a load answers is remembered under its path. -/
theorem load_remembered (tree : FileTree) (path : String) (db : PackageDb) :
    (db.load tree path).2.byPath.lookup path = some (db.load tree path).1 := by
  cases hseen : db.byPath.lookup path with
  | some package =>
    rw [load_of_remembered tree hseen]
    exact hseen
  | none =>
    have hread : (db.readFor tree path).2.byPath.lookup path = none := by
      cases hdir : db.dirFor tree path with
      | none =>
        rw [readFor_of_none hdir]
        exact hseen
      | some dir =>
        rw [readFor_of_some hdir]
        unfold readDir
        split <;> exact hseen
    rw [load_of_new hseen]
    exact List.lookup_append.trans (Option.or_eq_some_iff.mpr (.inr ⟨hread, by simp⟩))

end PackageDb

namespace Session

/-- What one session remembers another one remembers as well, with fewer answers of the cancel flag left and the
same imports asked for. -/
structure GrowsTo (s s' : Session) : Prop where
  packages : s.packages.GrowsTo s'.packages
  cancel : s'.cancel <:+ s.cancel
  forwarded : s'.forwarded = s.forwarded

theorem GrowsTo.refl (s : Session) : s.GrowsTo s := ⟨.refl _, List.suffix_refl _, rfl⟩

theorem GrowsTo.trans {s₁ s₂ s₃ : Session} (h : s₁.GrowsTo s₂) (h' : s₂.GrowsTo s₃) : s₁.GrowsTo s₃ :=
  ⟨h.packages.trans h'.packages, h'.cancel.trans h.cancel, h'.forwarded.trans h.forwarded⟩

theorem growsTo_poll (s : Session) : s.GrowsTo s.poll.2 := by
  unfold poll
  split
  · exact .refl s
  · next answer rest h => exact ⟨.refl _, by rw [h]; exact List.suffix_cons .., rfl⟩

/-- The cancel flag is not raised any more. -/
def FlagDown (s : Session) : Prop := ∀ up ∈ s.cancel, up = false

theorem GrowsTo.flagDown {s s' : Session} (h : s.GrowsTo s') (hdown : s.FlagDown) : s'.FlagDown :=
  fun up hup => hdown up (h.cancel.subset hup)

theorem FlagDown.poll {s : Session} (h : s.FlagDown) : s.poll.1 = false := by
  unfold Session.poll
  split
  · rfl
  · next answer rest hcancel => exact h answer (by rw [hcancel]; exact List.mem_cons_self)

theorem poll_packages (s : Session) : s.poll.2.packages = s.packages := by
  unfold poll
  split <;> rfl

end Session

/-! ## Resolution -/

namespace Resolution

variable {α β : Type}

/-- A look-up among the packages. Both ways to load a package are one, after a look at the cancel flag. -/
def ask (f : PackageDb → α × PackageDb) : Resolution α := fun s =>
  (.ok (f s.packages).1, { s with packages := (f s.packages).2 })

/-- A step from which the session has only grown, whether it answers or stops. -/
structure Grows (r : Resolution α) : Prop where
  step (s : Session) : s.GrowsTo (r s).2

namespace Grows

theorem give (a : α) : Grows (Resolution.give a) := ⟨fun s => .refl s⟩

theorem stop (e : ResolveError) : Grows (Resolution.stop e : Resolution α) := ⟨fun s => .refl s⟩

/-- The session after two steps has grown from the one after the first. -/
theorem after {r : Resolution α} {f : α → Resolution β} (hf : ∀ a, (f a).Grows) (s : Session) :
    (r s).2.GrowsTo ((r >>= f) s).2 := by
  show (r s).2.GrowsTo (r.andThen f s).2
  unfold andThen
  cases r s with
  | mk result s₁ =>
    cases result with
    | error e => exact .refl s₁
    | ok a => exact (hf a).step s₁

theorem bind {r : Resolution α} {f : α → Resolution β} (hr : r.Grows) (hf : ∀ a, (f a).Grows) :
    Grows (r >>= f) := ⟨fun s => (hr.step s).trans (after hf s)⟩

theorem forEach {f : α → Resolution β} (hf : ∀ a, (f a).Grows) (as : List α) :
    Grows (Resolution.forEach f as) := by
  induction as with
  | nil => exact give _
  | cons a rest ih => exact .bind (hf a) fun _ => .bind ih fun _ => give _

theorem checkCancelled : Grows Resolution.checkCancelled := by
  refine ⟨fun s => ?_⟩
  have hs := s.growsTo_poll
  unfold Resolution.checkCancelled
  cases hpoll : s.poll with
  | mk up s₁ =>
    rw [hpoll] at hs
    cases up <;> exact hs

theorem ask {f : PackageDb → α × PackageDb} (hf : ∀ db : PackageDb, db.GrowsTo (f db).2) :
    Grows (Resolution.ask f) := ⟨fun s => ⟨hf s.packages, List.suffix_refl _, rfl⟩⟩

theorem load (tree : FileTree) (path : String) : Grows (Resolution.load tree path) :=
  .bind .checkCancelled fun _ => .ask (PackageDb.load_growsTo tree path)

theorem loadDir (tree : FileTree) (dir : Path) : Grows (Resolution.loadDir tree dir) :=
  .bind .checkCancelled fun _ => .ask (PackageDb.loadDir_growsTo tree dir)

theorem firstOf (tree : FileTree) (f : ImportSpec → Package → Option α) (imports : List ImportSpec) :
    Grows (Resolution.firstOf tree f imports) := by
  induction imports with
  | nil => exact give _
  | cons i rest ih =>
    refine .bind (load tree i.path) fun package => ?_
    split
    · exact give _
    · exact ih

/-- What follows a package that is loaded for the first thing found: it is given, or it is looked for behind. -/
theorem orFirstOf (tree : FileTree) (f : ImportSpec → Package → Option α) (rest : List ImportSpec)
    (found : Option α) : Grows (match found with
      | some a => Resolution.give (some a)
      | none => Resolution.firstOf tree f rest) := by
  cases found with
  | none => exact .firstOf ..
  | some a => exact .give _

end Grows

end Resolution

open Resolution (Grows)

/-- All steps grow. -/
theorem grows_steps (tree : FileTree) : KeptBySteps tree fun r => Grows r :=
  ⟨.give, fun _ => .stop _, .bind, .load tree, .loadDir tree⟩

namespace Env

end Env

section

variable {tree : FileTree} {inner : Inner} (hinner : ∀ env type mode, Grows (inner env type mode))
include hinner

theorem grows_resolveArg (env : Env) (arg : TypeExpr) : Grows (resolveArg tree inner env arg) :=
  (grows_steps tree).resolveArg hinner env arg

theorem grows_enterDeclared (env : Env) (site : Site) (args : List Ty) :
    Grows (enterDeclared inner env site args) := (grows_steps default).enterDeclared hinner env site args

theorem grows_resolveFound (env : Env) (name : String) (args : List TypeExpr) (mode : Mode)
    (found : Option Found) : Grows (resolveFound tree inner env name args mode found) :=
  (grows_steps tree).resolveFound hinner env name args mode found

theorem grows_resolveSite (env : Env) (n : TypeName) (args : List TypeExpr) (mode : Mode)
    (site : Option Site) : Grows (resolveSite tree inner env n args mode site) :=
  (grows_steps tree).resolveSite hinner env n args mode site

theorem grows_resolveImported (env : Env) (qualifier name : String) (args : List TypeExpr) (mode : Mode)
    (imported : Option (String × String)) :
    Grows (resolveImported tree inner env qualifier name args mode imported) :=
  (grows_steps tree).resolveImported hinner env qualifier name args mode imported

theorem grows_resolveForm (env : Env) (type : TypeExpr) (mode : Mode) :
    Grows (resolveForm tree inner env type mode) := (grows_steps tree).resolveForm hinner env type mode

end

theorem grows_resolveWithin (tree : FileTree) (depth : Nat) (env : Env) (type : TypeExpr) (mode : Mode) :
    Grows (resolveWithin tree depth env type mode) := (grows_steps tree).resolveWithin depth env type mode

theorem grows_packageBeside (tree : FileTree) (scope : Scope) : Grows (packageBeside tree scope) :=
  (grows_steps tree).packageBeside scope

theorem grows_structOf (scope : Scope) (t : Ty) : Grows (structOf scope t) := (grows_steps default).structOf scope t

theorem grows_resolveStruct (tree : FileTree) (scope : Scope) (type : TypeExpr) :
    Grows (resolveStruct tree scope type) := (grows_steps tree).resolveStruct scope type

end LiteralFill
