import LiteralFill.Proofs.Fill.Lockstep
import Mathlib.Logic.IsEmpty.Basic

/-!
Runs over the same packages agree. Packages are looked up in files that do not change, and what was looked up is
remembered; so runs whose sessions are all part of one memory get the same packages, whatever each of them loads
and in whatever order. Resolution then depends on the types of the type arguments in one way only: relations that
all forms of types keep are kept by it.
-/

namespace LiteralFill

open Resolution (give stop forEach Grows)

variable {ι α β : Type} (w : PackageDb)

/-! ## One memory -/

/-- Runs whose sessions end within one memory; a run that is cancelled excuses the others. -/
def Frame.within (ι : Type) : Frame ι where
  together _ := True
  lost s := ∃ i, ¬ (s i).packages.GrowsTo w
  excused _ e _ := e = .cancelled
  lost_grows hg := fun ⟨i, hi⟩ => ⟨i, fun h => hi ((hg i).packages.trans h)⟩

/-- A step that answers the same in all runs within one memory. -/
structure Settled (r : Resolution α) : Prop where
  lockstep (ι : Type) : Lockstep (Frame.within w ι) (fun _ => r) fun a _ => Same a

namespace Settled

variable {w}

theorem give (a : α) : Settled w (give a) := ⟨fun _ => .give fun _ _ => ⟨a, rfl⟩⟩

theorem bind {r : Resolution α} {f : α → Resolution β} (hr : Settled w r) (hgrows : ∀ a, (f a).Grows)
    (hf : ∀ a, Settled w (f a)) : Settled w (r >>= f) := by
  refine ⟨fun ι => (hr.lockstep ι).bind (fun _ => hgrows) ?_⟩
  rintro _ s₁ - ⟨a, rfl⟩
  exact ((hf a).lockstep ι).after s₁

theorem checkCancelled : Settled w Resolution.checkCancelled := by
  refine ⟨fun ι s _ => ?_⟩
  by_cases hup : ∃ i, (s i).poll.1 = true
  · obtain ⟨i, hi⟩ := hup
    refine .excused (i := i) (e := .cancelled) rfl ?_
    show (Resolution.checkCancelled (s i)).1 = _
    unfold Resolution.checkCancelled
    split <;> simp_all
  · have hrun (i : ι) : Resolution.checkCancelled (s i) = (.ok (), (s i).poll.2) := by
      have hdown : (s i).poll.1 = false := by simpa using fun h => hup ⟨i, h⟩
      unfold Resolution.checkCancelled
      split <;> simp_all
    exact .answered trivial (fun i => (s i).growsTo_poll) ⟨(), rfl⟩ hrun

/-- A look-up that answers the same wherever what it leaves is part of the memory. -/
theorem ask {f : PackageDb → α × PackageDb} (hgrows : ∀ db : PackageDb, db.GrowsTo (f db).2)
    (hsame : ∀ db db', (f db).2.GrowsTo w → (f db').2.GrowsTo w → (f db).1 = (f db').1) :
    Settled w (Resolution.ask f) := by
  refine ⟨fun ι s _ => ?_⟩
  by_cases hw : ∃ i, ¬ (f (s i).packages).2.GrowsTo w
  · exact .lost hw
  · simp only [not_exists, not_not] at hw
    have hg (i : ι) : (s i).GrowsTo (Resolution.ask f (s i)).2 := (Grows.ask hgrows).step (s i)
    have hanswers : Same fun i => (f (s i).packages).1 := by
      rcases isEmpty_or_nonempty ι with hempty | ⟨⟨i⟩⟩
      · exact ⟨(f w).1, funext fun i => hempty.elim i⟩
      · exact ⟨(f (s i).packages).1, funext fun j => hsame _ _ (hw j) (hw i)⟩
    exact .answered trivial hg hanswers fun _ => rfl

theorem load (tree : FileTree) (path : String) : Settled w (Resolution.load tree path) := by
  refine .bind .checkCancelled (fun _ => .ask (PackageDb.load_growsTo tree path)) fun _ =>
    .ask (PackageDb.load_growsTo tree path) fun db db' h h' => ?_
  have hdb := h.byPath (PackageDb.load_remembered tree path db)
  have hdb' := h'.byPath (PackageDb.load_remembered tree path db')
  exact Option.some.inj (hdb.symm.trans hdb')

theorem loadDir (tree : FileTree) (dir : Path) : Settled w (Resolution.loadDir tree dir) := by
  refine .bind .checkCancelled (fun _ => .ask (PackageDb.loadDir_growsTo tree dir)) fun _ =>
    .ask (PackageDb.loadDir_growsTo tree dir) fun db db' h h' => ?_
  have hdb := h.byDir (PackageDb.readDir_remembered tree _ dir db)
  have hdb' := h'.byDir (PackageDb.readDir_remembered tree _ dir db')
  exact Option.some.inj (hdb.symm.trans hdb')

theorem forEach {f : α → Resolution β} (hgrows : ∀ a, (f a).Grows) (hf : ∀ a, Settled w (f a)) (as : List α) :
    Settled w (Resolution.forEach f as) := by
  induction as with
  | nil => exact give _
  | cons a rest ih =>
    exact .bind (hf a) (fun _ => .bind (.forEach hgrows rest) fun _ => .give _)
      fun b => .bind ih (fun _ => .give _) fun _ => give _

end Settled

variable {w}

/-! ## Names -/

/-- Runs to which packages are loaded alike. -/
def Frame.LoadsAlike (F : Frame ι) (tree : FileTree) : Prop :=
  ∀ path, Lockstep F (fun _ => Resolution.load tree path) fun a _ => Same a

theorem Frame.within_loadsAlike (tree : FileTree) : (Frame.within w ι).LoadsAlike tree :=
  fun path => (Settled.load tree path).lockstep ι

namespace Frame.LoadsAlike

variable {F : Frame ι} {tree : FileTree} (h : F.LoadsAlike tree)
include h

theorem firstOf (f : ImportSpec → Package → Option α) (imports : List ImportSpec) :
    Lockstep F (fun _ => Resolution.firstOf tree f imports) fun a _ => Same a := by
  induction imports with
  | nil => exact .give fun _ _ => ⟨none, rfl⟩
  | cons i rest ih =>
    refine (h i.path).bind (fun _ package => .orFirstOf tree f rest (package.bind (f i))) ?_
    rintro _ s₁ - ⟨package, rfl⟩
    dsimp only
    cases package.bind (f i) with
    | none => exact ih.after s₁
    | some a => exact .give fun _ _ => ⟨some a, rfl⟩

theorem importNamed (env : Env) (qualifier : String) :
    Lockstep F (fun _ => env.importNamed tree qualifier) fun a _ => Same a := by
  unfold Env.importNamed
  split
  · exact .give fun _ _ => ⟨_, rfl⟩
  · exact h.firstOf _ _

theorem lookup (env : Env) (name : String) : Lockstep F (fun _ => env.lookup tree name) fun a _ => Same a := by
  unfold Env.lookup
  split
  · exact .give fun _ _ => ⟨_, rfl⟩
  · refine (h.firstOf _ _).bind (fun _ _ => .give _) ?_
    rintro _ s₁ - ⟨site, rfl⟩
    exact .give fun _ _ => ⟨_, rfl⟩

theorem importedSite (name : String) (imported : Option (String × String)) :
    Lockstep F (fun _ => LiteralFill.importedSite tree name imported) fun a _ => Same a := by
  unfold LiteralFill.importedSite
  split
  · refine (h _).bind (fun _ _ => .give _) ?_
    rintro _ s₁ - ⟨package, rfl⟩
    exact .give fun _ _ => ⟨_, rfl⟩
  · exact .give fun _ _ => ⟨none, rfl⟩

end Frame.LoadsAlike

variable (tree : FileTree)

theorem settled_packageBeside (scope : Scope) : Settled w (packageBeside tree scope) := by
  unfold packageBeside
  split
  · exact .loadDir ..
  · exact .give _

/-! ## Types of arguments -/

/-- Lists of arguments in which the same names stand for types that belong together. -/
def ArgumentsTogether (T : (ι → Ty) → Prop) (arguments : ι → List (String × Ty)) : Prop :=
  ∀ name, (∀ i, (arguments i).lookup name = none) ∨
    ∃ t : ι → Ty, T t ∧ ∀ i, (arguments i).lookup name = some (t i)

theorem ArgumentsTogether.of_forall {T : (ι → Ty) → Prop} {l : List (String × (ι → Ty))}
    (h : ∀ e ∈ l, T e.2) : ArgumentsTogether T fun i => l.map fun e => (e.1, e.2 i) := by
  intro name
  induction l with
  | nil => exact .inl fun i => rfl
  | cons e rest ih =>
    by_cases hname : name = e.1
    · exact .inr ⟨e.2, h e List.mem_cons_self, fun i => by simp [hname]⟩
    · have hskip (i : ι) : ((e :: rest).map fun e => (e.1, e.2 i)).lookup name =
          (rest.map fun e => (e.1, e.2 i)).lookup name := by
        have : (name == e.1) = false := by simpa using hname
        simp [List.lookup_cons, this]
      simp only [hskip]
      exact ih fun e he => h e (List.mem_cons_of_mem _ he)

/-- The types that the parameters of a declaration stand for inside it. -/
theorem Env.argumentsTogether_inside {T : (ι → Ty) → Prop} (env : Env) (site : Site) {args : ι → List Ty}
    (h : ∀ (k : Nat) param, site.decl.params[k]? = some param → T fun i => ((args i)[k]?).getD (.param param)) :
    ArgumentsTogether T fun i => (env.inside site (args i)).arguments := by
  let l : List (String × (ι → Ty)) := (site.decl.params.zipIdx.map fun e =>
    (e.1, fun i => ((args i)[e.2]?).getD (.param e.1))).reverse
  have hl : ∀ e ∈ l, T e.2 := by
    intro e he
    obtain ⟨⟨param, k⟩, hmem, rfl⟩ := List.mem_map.mp (List.mem_reverse.mp he)
    exact h k param (List.mem_zipIdx_iff_getElem?.mp hmem)
  have hinside (i : ι) : (env.inside site (args i)).arguments = l.map fun e => (e.1, e.2 i) := by
    simp only [inside, l, List.map_reverse, List.map_map]
    rfl
  simp only [hinside]
  exact .of_forall hl

/-- Types that belong together, place by place. -/
theorem TypesTogether.getD_map {T : (ι → Ty) → Prop} (hT : TypesTogether T) {args : List (ι → Ty)}
    (hargs : ∀ t ∈ args, T t) (k : Nat) (param : String) :
    T fun i => ((args.map (· i))[k]?).getD (.param param) := by
  simp only [List.getElem?_map]
  cases hk : args[k]? with
  | none => exact hT.same (.param param)
  | some t => exact hargs t (List.mem_of_getElem? hk)

/-- The same arguments in all runs. -/
theorem TypesTogether.arguments {T : (ι → Ty) → Prop} (hT : TypesTogether T) (arguments : List (String × Ty)) :
    ArgumentsTogether T fun _ => arguments := by
  intro name
  cases hname : arguments.lookup name with
  | none => exact .inl fun _ => hname
  | some t => exact .inr ⟨fun _ => t, hT.same t, fun _ => hname⟩

section

variable {tree} {F : Frame ι} (hF : F.LoadsAlike tree) {T : (ι → Ty) → Prop}
include hF

/-- A name is looked up in the arguments first, and then among names that the arguments have no part in. -/
theorem Env.lockstep_lookup (hT : FormsTogether T) (env : Env) {arguments : ι → List (String × Ty)}
    (harguments : ArgumentsTogether T arguments) (name : String) :
    Lockstep F (fun i => Env.lookup tree { env with arguments := arguments i } name)
      (FoundTogether T fun site _ => Same site) := by
  rcases harguments name with hnone | ⟨t, ht, hsome⟩
  · have hlookup (i : ι) : Env.lookup tree { env with arguments := arguments i } name =
        Env.lookup tree { env with arguments := [] } name := by
      simp only [lookup, lookupNear, hnone i, List.lookup_nil]
      rfl
    simp only [hlookup]
    cases hnear : Env.lookupNear { env with arguments := [] } name with
    | some found =>
      simp only [lookup, hnear]
      cases found with
      | declaration site => exact .give fun s _ => .declaration ⟨site, rfl⟩
      | type t =>
        obtain ht | ⟨-, ht⟩ := lookupNear_type hnear
        · cases ht
        · exact .give fun s _ => .type s (hT.plain (predeclaredType_plain ht))
    | none =>
      simp only [lookup, hnear]
      refine (hF.firstOf _ _).bind (fun _ _ => .give _) ?_
      rintro _ s₁ - ⟨site, rfl⟩
      cases site with
      | none => exact .give fun s _ => .none s
      | some site => exact .give fun s _ => .declaration ⟨site, rfl⟩
  · have hlookup (i : ι) : Env.lookup tree { env with arguments := arguments i } name =
        give (some (.type (t i))) := by
      simp only [lookup, lookupNear, hsome i]
    simp only [hlookup]
    exact .give fun s _ => .type s ht

/-- A form of types keeps a relation of types if the types inside it do, and declarations that are entered. -/
theorem lockstep_form (hT : FormsTogether T) {inner : ι → Inner}
    (hgrows : ∀ i env type mode, (inner i env type mode).Grows) (env : Env) {arguments : ι → List (String × Ty)}
    (harguments : ArgumentsTogether T arguments)
    (henter : ∀ (site : Site) (args : List (ι → Ty)), (∀ t ∈ args, T t) → Lockstep F
      (fun i => enterDeclared (inner i) { env with arguments := arguments i } site (args.map (· i))) fun t _ => T t)
    (type : TypeExpr) (mode : Mode) (hparts : ∀ t ∈ type.parts, ∀ mode,
      Lockstep F (fun i => inner i { env with arguments := arguments i } t mode) fun t _ => T t) :
    Lockstep F (fun i => resolveForm tree (inner i) { env with arguments := arguments i } type mode)
      fun t _ => T t := by
  have hstep : InStep F T (fun site _ => Same site) (fun _ => True) (fun _ => tree) inner
      (fun i => { env with arguments := arguments i }) := {
    grows := hgrows
    types := hT
    name := ⟨(env.path, env.name), rfl⟩
    length := fun l => ⟨env.arrayLength l, rfl⟩
    lookup := env.lockstep_lookup hF hT harguments
    importNamed := fun q => (hF.importNamed { env with arguments := [] } q).weaken
      fun _ _ _ ⟨b, hb⟩ => ⟨b, trivial, hb⟩
    imported := fun name imported _ => (hF.importedSite name imported).weaken <| by
      rintro _ s - ⟨site, rfl⟩
      cases site with
      | none => exact .none s
      | some site => exact .some ⟨site, rfl⟩
    site := by
      rintro _ _ ⟨site, rfl⟩
      exact ⟨_, rfl⟩
    enter := by
      rintro _ s args - ⟨site, rfl⟩ hargs
      exact (henter site args hargs).after s }
  exact hstep.form type mode hparts

/-- A form of types is parametric if the types inside it are. -/
theorem lockstep_resolveForm (hT : TypesTogether T) {inner : ι → Inner}
    (hgrows : ∀ i env type mode, (inner i env type mode).Grows)
    (hinner : ∀ (env : Env) (arguments : ι → List (String × Ty)), ArgumentsTogether T arguments →
      ∀ (type : TypeExpr) (mode : Mode),
        Lockstep F (fun i => inner i { env with arguments := arguments i } type mode) fun t _ => T t)
    (env : Env) {arguments : ι → List (String × Ty)} (harguments : ArgumentsTogether T arguments) (type : TypeExpr)
    (mode : Mode) :
    Lockstep F (fun i => resolveForm tree (inner i) { env with arguments := arguments i } type mode)
      fun t _ => T t := by
  refine lockstep_form hF hT.toFormsTogether hgrows env harguments (fun site args hargs => ?_) type mode
    fun t _ mode => hinner env _ harguments t mode
  have hinside := env.argumentsTogether_inside site fun k param _ => hT.getD_map hargs k param
  by_cases halias : site.decl.isAlias = true
  · by_cases hcycle : env.expanding.contains site.place = true
    · simp only [enterDeclared, halias, hcycle, ↓reduceIte]
      exact .stop _
    · simp only [enterDeclared, halias, hcycle, ↓reduceIte]
      exact hinner (env.expandingAlias site []) _ hinside _ _
  · by_cases hcycle : env.visiting.contains site.typeName = true
    · simp only [enterDeclared, halias, hcycle, ↓reduceIte]
      exact .give fun _ _ => hT.same _
    · simp only [enterDeclared, halias, hcycle]
      refine (hinner (env.enteringType site []) _ hinside _ _).bind (fun _ _ => .give _) fun t _ _ ht => ?_
      exact .give fun _ _ => hT.named _ hargs ht

/-- Resolution is parametric: whatever relation all forms of types keep, it keeps from the type arguments to what
a type stands for. -/
theorem lockstep_resolveWithin (hT : TypesTogether T) (depth : Nat) (env : Env) {arguments : ι → List (String × Ty)}
    (harguments : ArgumentsTogether T arguments) (type : TypeExpr) (mode : Mode) :
    Lockstep F (fun i => resolveWithin tree depth { env with arguments := arguments i } type mode)
      fun t _ => T t := by
  induction depth generalizing env arguments type mode with
  | zero => exact .stop .endless
  | succ depth ih =>
    exact lockstep_resolveForm hF hT (fun _ => grows_resolveWithin tree depth) (fun env _ h => ih env h) env
      harguments type mode

end

/-- Whatever a type stands for, it stands for the same in all runs within one memory. -/
theorem settled_resolveWithin (depth : Nat) (env : Env) (type : TypeExpr) (mode : Mode) :
    Settled w (resolveWithin tree depth env type mode) := by
  exact ⟨fun ι => lockstep_resolveWithin (Frame.within_loadsAlike tree) typesTogether_same depth env
    (typesTogether_same.arguments _) type mode⟩

end LiteralFill
