import LiteralFill.Proofs.Fill.Agreement
import LiteralFill.Proofs.Fill.Identity

/-!
Aliases that lead back to themselves. The recursion that does not watch its aliases finds no end in such an alias.
If it came to the end of one within some depth, it would have come to the end of the same alias inside it, within
less. The two runs need not load the same packages, so they are compared over sessions that remember all packages
from the start. So the recursion ends exactly where resolution does not find that an alias leads back to itself.
-/

namespace LiteralFill

open Resolution (give stop forEach Grows)

variable {ι α : Type}

/-! ## Depth -/

theorem Env.kept_arguments (env : Env) (guarded : Bool) (arguments : List (String × Ty)) :
    Env.kept { env with arguments } guarded = { env.kept guarded with arguments } := by cases guarded <;> rfl

/-- The recursion is parametric within any depth. Of runs within different depths the shallowest may find no end. -/
theorem lockstep_resolver_parametric {F : Frame ι} {tree : FileTree} (hF : F.LoadsAlike tree) {T : (ι → Ty) → Prop}
    (hT : TypesTogether T) (guarded : Bool) {n : Nat} {depth : ι → Nat} {i : ι} (hi : depth i = n)
    (hdepth : (∀ j, depth j = n) ∨ (∀ j, n ≤ depth j) ∧ ∀ s, F.excused i .endless s) (env : Env)
    {arguments : ι → List (String × Ty)} (harguments : ArgumentsTogether T arguments) (type : TypeExpr) (mode : Mode) :
    Lockstep F (fun j => resolver tree guarded (depth j) { env with arguments := arguments j } type mode)
      fun t _ => T t := by
  induction n generalizing depth env arguments type mode with
  | zero =>
    rcases hdepth with hsame | ⟨-, hexcused⟩
    · simp only [hsame]
      exact .stop .endless
    · refine .excuse (i := i) hexcused ?_
      rw [hi]
      rfl
  | succ n ih =>
    have hle : ∀ j, n + 1 ≤ depth j := by
      intro j
      rcases hdepth with hsame | ⟨hle, -⟩
      · exact (hsame j).ge
      · exact hle j
    obtain ⟨inner, rfl, hinner⟩ := exists_inner hle
    have hdepth : (∀ j, inner j = n) ∨ (∀ j, n ≤ inner j) ∧ ∀ s, F.excused i .endless s :=
      hdepth.imp (fun hsame j => Nat.succ.inj (hsame j)) fun ⟨_, hexcused⟩ => ⟨hinner, hexcused⟩
    show Lockstep F (fun j => resolveForm tree (resolver tree guarded (inner j))
      (Env.kept { env with arguments := arguments j } guarded) type mode) _
    simp only [Env.kept_arguments]
    exact lockstep_resolveForm hF hT (fun j => grows_resolver tree guarded (inner j))
      (fun env _ h type mode => ih (Nat.succ.inj hi) hdepth env h type mode) (env.kept guarded) harguments type mode

/-- A run that comes to an end comes to the same within more depth. -/
theorem resolver_deeper {tree : FileTree} {guarded : Bool} {d d' : Nat} (hd : d ≤ d') {env : Env} {type : TypeExpr}
    {mode : Mode} {s : Session} (h : (resolver tree guarded d env type mode s).1 ≠ .error .endless) :
    resolver tree guarded d' env type mode s = resolver tree guarded d env type mode s := by
  let F := Frame.equal (resolver tree guarded d env type mode s).2.packages false
  have hF : F.LoadsAlike tree := Frame.equal_loadsAlike tree
  have hdepth : ∀ i, d ≤ cond i d' d := by
    rintro (_ | _)
    · exact Nat.le_refl d
    · exact hd
  have hstep : Lockstep F (fun i => resolver tree guarded (cond i d' d) env type mode) fun t _ => Same t :=
    lockstep_resolver_parametric hF typesTogether_same guarded (i := false) rfl
      (.inr ⟨hdepth, fun _ => ⟨rfl, rfl, rfl⟩⟩) env (typesTogether_same.arguments env.arguments) type mode
  exact (hstep (fun _ => s) rfl).eq rfl (.inr h)

/-! ## Packages that are remembered from the start -/

/-- Runs over one session and, set against them, runs whose sessions remember all packages of a memory already. What
becomes of the other runs does not matter once one that is watched goes beyond the memory. -/
def Frame.recalling (memory : PackageDb) (recalls watched : ι → Prop) (excused : ι → ResolveError → Prop) :
    Frame ι where
  together s := (∀ i, (s i).FlagDown) ∧ (∀ i, recalls i → (s i).packages = memory) ∧
    ∀ i j, ¬ recalls i → ¬ recalls j → s i = s j
  lost s := ∃ i, watched i ∧ ¬ (s i).packages.GrowsTo memory
  excused i e _ := excused i e
  lost_grows hg := fun ⟨i, hi, hlost⟩ => ⟨i, hi, fun h => hlost ((hg i).packages.trans h)⟩

theorem Resolution.load_of_flagDown {s : Session} (h : s.FlagDown) (tree : FileTree) (path : String) :
    (Resolution.load tree path s).1 = .ok (s.packages.load tree path).1 ∧
      (Resolution.load tree path s).2.packages = (s.packages.load tree path).2 := by
  have hchecked : Resolution.checkCancelled s = (.ok (), s.poll.2) := by
    have hdown := h.poll
    unfold Resolution.checkCancelled
    split <;> simp_all
  have hload : Resolution.load tree path s = Resolution.ask (PackageDb.load tree path) s.poll.2 :=
    Resolution.bind_of_ok hchecked _
  rw [hload, Resolution.ask, s.poll_packages]
  exact ⟨rfl, rfl⟩

theorem Frame.recalling_loadsAlike {memory : PackageDb} {recalls watched : ι → Prop}
    {excused : ι → ResolveError → Prop} {i : ι} (hi : ∀ j, ¬ recalls j → ¬ recalls i) (hwatched : watched i)
    (tree : FileTree) :
    (Frame.recalling memory recalls watched excused).LoadsAlike tree := by
  intro path s ⟨hdown, hmemory, hone⟩
  have hanswer (j : ι) := (Resolution.load_of_flagDown (hdown j) tree path).1
  have hpackages (j : ι) := (Resolution.load_of_flagDown (hdown j) tree path).2
  have hgrows (j : ι) : (s j).GrowsTo (Resolution.load tree path (s j)).2 := (Grows.load tree path).step (s j)
  by_cases hlost : ((s i).packages.load tree path).2.GrowsTo memory
  · have hrecalled := hlost.byPath (PackageDb.load_remembered tree path (s i).packages)
    have hload (j : ι) (hj : recalls j) :
        (s j).packages.load tree path = (((s i).packages.load tree path).1, memory) := by
      rw [hmemory j hj]
      exact PackageDb.load_of_remembered tree hrecalled
    have hsame (j : ι) : (Resolution.load tree path (s j)).1 = .ok ((s i).packages.load tree path).1 := by
      by_cases hj : recalls j
      · rw [hanswer, hload j hj]
      · rw [hone j i hj (hi j hj), hanswer]
    refine .answered ⟨?_, ?_, ?_⟩ hgrows ⟨((s i).packages.load tree path).1, rfl⟩ fun j => Prod.ext (hsame j) rfl
    · intro j
      exact (hgrows j).flagDown (hdown j)
    · intro j hj
      exact (hpackages j).trans (congrArg Prod.snd (hload j hj))
    · intro j k hj hk
      exact congrArg (fun s => (Resolution.load tree path s).2) (hone j k hj hk)
  · exact .lost ⟨i, hwatched, fun h => hlost (hpackages i ▸ h)⟩

namespace World

variable (v : World)

/-- A session that remembers all packages from the start. -/
structure Recalls (s : Session) : Prop where
  flagDown : s.FlagDown
  packages : s.packages = v.memory

/-- The recursion that is not guarded comes to an end within this depth, with packages of the memory alone. -/
structure Ends (depth : Nat) (env : Env) (type : TypeExpr) (mode : Mode) (s : Session) : Prop where
  ends : (resolver v.tree false depth env type mode s).1 ≠ .error .endless
  memory : (resolver v.tree false depth env type mode s).2.packages.GrowsTo v.memory

/-- A run comes to the declaration at a place, inside these declared types. -/
structure ComesTo (visiting : List TypeName) (place : Origin × TypeName × Nat) (env : Env) (site : Site) : Prop where
  names : v.EnvAt env
  declaration : v.SiteAt env site
  visiting_eq : env.visiting = visiting
  place_eq : site.place = place

/-- Some run comes to the end of the alias at a place within this depth. -/
def Expands (depth : Nat) (visiting : List TypeName) (place : Origin × TypeName × Nat) : Prop :=
  ∃ env site args s, v.ComesTo visiting place env site ∧ v.Recalls s ∧
    v.Ends depth (env.expandingAlias site args) site.decl.type .value s

variable {v} {depth : Nat} {visiting : List TypeName} {place : Origin × TypeName × Nat} {s s' : Session}

/-- A run that comes to an end does so as well where all its packages are remembered from the start, whatever its
type arguments. -/
theorem Ends.replay (env : Env) (arguments : Bool → List (String × Ty)) {type : TypeExpr} {mode : Mode}
    (h : v.Ends depth { env with arguments := arguments false } type mode s)
    (harguments : ArgumentsTogether (fun _ => True) arguments) (hs : s.FlagDown) (hs' : v.Recalls s') :
    v.Ends depth { env with arguments := arguments true } type mode s' := by
  let F : Frame Bool := .recalling v.memory (· = true) (· = false) fun _ _ => False
  have hF : F.LoadsAlike v.tree :=
    @Frame.recalling_loadsAlike _ v.memory (· = true) (· = false) _ false (fun _ _ => Bool.false_ne_true) rfl v.tree
  have hstep : Lockstep F (fun i => resolver v.tree false depth { env with arguments := arguments i } type mode)
      fun _ _ => True := lockstep_resolver_parametric hF typesTogether_true false (i := false) rfl
    (.inl fun _ => rfl) env harguments type mode
  have htogether : F.together (cond · s' s) := by
    refine ⟨?_, ?_, ?_⟩
    · rintro (_ | _)
      · exact hs
      · exact hs'.flagDown
    · rintro _ rfl
      exact hs'.packages
    · rintro (_ | _) (_ | _) hi hj
      · rfl
      · exact absurd rfl hj
      · exact absurd rfl hi
      · exact absurd rfl hi
  cases hstep _ htogether with
  | lost hlost =>
    obtain ⟨_, rfl, hlost⟩ := hlost
    exact absurd h.memory hlost
  | excused hexcused => exact hexcused.elim
  | @stopped e s'' hs'' _ hrun =>
    have hfalse := hrun false
    have htrue := hrun true
    dsimp only [cond] at hfalse htrue
    refine ⟨?_, ?_⟩
    · have hends := h.ends
      rw [hfalse] at hends
      rw [htrue]
      exact hends
    · rw [htrue, hs''.2.1 true rfl]
      exact .refl _
  | @answered t s'' hs'' _ _ hrun =>
    have htrue := hrun true
    dsimp only [cond] at htrue
    refine ⟨?_, ?_⟩
    · rw [htrue]
      nofun
    · rw [htrue, hs''.2.1 true rfl]
      exact .refl _

/-- Where some run comes to the end of an alias, all runs do that come to it and remember all packages. -/
theorem Expands.ends (hv : v.Sound) (h : v.Expands depth visiting place) {env : Env} {site : Site}
    (hcomes : v.ComesTo visiting place env site) (args : List Ty) (hs : v.Recalls s) :
    v.Ends depth (env.expandingAlias site args) site.decl.type .value s := by
  obtain ⟨env', site', args', s', hcomes', hs', hends⟩ := h
  obtain ⟨hdecl, hnames⟩ := expandingAlias_eq hv hcomes'.names hcomes.names hcomes'.declaration hcomes.declaration
    (hcomes'.place_eq.trans hcomes.place_eq.symm) (hcomes'.visiting_eq.trans hcomes.visiting_eq.symm) args'
  have hsame : v.Ends depth (env.expandingAlias site args') site.decl.type .value s' := by
    have hforgets := resolver_forgets v.tree depth (env.expandingAlias site args')
      (site'.place :: env'.expanding) site.decl.type .value
    rw [hnames, hdecl] at hends
    constructor
    · rw [← hforgets]
      exact hends.ends
    · rw [← hforgets]
      exact hends.memory
  exact Ends.replay (env.expandingAlias site []) (fun i => (env.inside site (cond i args args')).arguments) hsame
    (env.argumentsTogether_inside site fun _ _ _ => trivial) hs'.flagDown hs

/-! ## Guarded and unguarded -/

variable (v) in
/-- Three runs: one that is not guarded, over a session that remembers all packages from the start, and two over one
session, of which the second is guarded. Nothing is claimed if the first finds no end, or if one that is not
guarded needs a package that is not remembered. -/
def watched : Frame (Option Bool) :=
  .recalling v.memory (· = none) (· ≠ some true) fun i e => i = none ∧ e = .endless

theorem watched_loadsAlike : v.watched.LoadsAlike v.tree :=
  @Frame.recalling_loadsAlike _ v.memory (· = none) (· ≠ some true) _ (some false) (fun _ _ => nofun) nofun v.tree

theorem watched_remembers : v.watched.Remembers v.memory := fun s hs => .inr ⟨none, by
  rw [hs.2.1 none rfl]
  exact .refl _⟩

theorem Expands.least {n : Nat} (h : v.Expands n visiting place) :
    ∃ k ≤ n, v.Expands k visiting place ∧ ∀ d < k, ¬ v.Expands d visiting place := by
  classical
  have hsome : ∃ d, v.Expands d visiting place := ⟨n, h⟩
  exact ⟨Nat.find hsome, Nat.find_min' hsome h, Nat.find_spec hsome, fun d => Nat.find_min hsome⟩

variable (v) in
/-- The runs are in step where the one that is not guarded has this depth and the others at least this. No alias that is
being expanded comes to its end within less. -/
def GuardedWithin (n : Nat) : Prop :=
  ∀ (depth : Option Bool → Nat) (_ : depth none = n) (_ : ∀ i, n ≤ depth i) ⦃env : Env⦄ (_ : v.EnvAt env)
    (_ : ∀ place ∈ env.expanding, ∀ d < n, ¬ v.Expands d env.visiting place) (type : TypeExpr) (mode : Mode),
    Lockstep v.watched (fun i => resolver v.tree (i.getD false) (depth i) env type mode) fun t _ => Same t

/-- An alias is entered in step: if it comes to its end at all, it is not one that is being expanded, and it does so
within the least depth in which any run comes to its end. -/
theorem lockstep_expandAlias (hv : v.Sound) {inner : Option Bool → Nat} {n : Nat} (hn : inner none = n)
    (hinner : ∀ i, n ≤ inner i) (ih : ∀ k ≤ n, v.GuardedWithin k) {env : Env} (henv : v.EnvAt env)
    (hexpanding : ∀ place ∈ env.expanding, ∀ d < n + 1, ¬ v.Expands d env.visiting place) {site : Site}
    (hsite : v.SiteAt env site) (args : List Ty) (halias : site.decl.isAlias = true) :
    Lockstep v.watched
      (fun i => enterDeclared (resolver v.tree (i.getD false) (inner i)) (env.kept (i.getD false)) site args)
      fun t _ => Same t := by
  intro s hs
  have hcomes : v.ComesTo env.visiting site.place env site := ⟨henv, hsite, rfl, rfl⟩
  have hrecalls : v.Recalls (s none) := ⟨hs.1 none, hs.2.1 none rfl⟩
  have hfirst : enterDeclared (resolver v.tree false (inner none)) (env.kept false) site args =
      resolver v.tree false n (env.expandingAlias site args) site.decl.type .value := by
    rw [hn]
    exact enterDeclared_alias args halias nofun
  by_cases hends : v.Ends n (env.expandingAlias site args) site.decl.type .value (s none)
  · have hexpands : v.Expands n env.visiting site.place := ⟨env, site, args, s none, hcomes, hrecalls, hends⟩
    have hnew : site.place ∉ env.expanding := fun hseen => hexpanding _ hseen n (Nat.lt_succ_self n) hexpands
    obtain ⟨k, hkn, hk, hleast⟩ := hexpands.least
    have hshallow : ∀ i, enterDeclared (resolver v.tree (i.getD false) (inner i)) (env.kept (i.getD false)) site args
        (s i) = resolver v.tree (i.getD false) (i.elim k fun g => inner (some g)) (env.expandingAlias site args)
          site.decl.type .value (s i) := by
      rintro (_ | guarded)
      · exact (congrFun hfirst _).trans (resolver_deeper hkn (hk.ends hv hcomes args hrecalls).ends)
      · rw [enterDeclared_alias args halias fun _ => hnew]
        rfl
    simp only [hshallow]
    refine ih k hkn _ rfl ?_ (henv.expandingAlias hsite args) ?_ _ _ s hs
    · rintro (_ | guarded)
      · exact Nat.le_refl k
      · exact hkn.trans (hinner (some guarded))
    · intro place hplace d hd
      rcases List.mem_cons.mp hplace with rfl | hplace
      · exact hleast d hd
      · exact hexpanding place hplace d (by omega)
  · by_cases hendless : (enterDeclared (resolver v.tree false (inner none)) (env.kept false) site args
        (s none)).1 = .error .endless
    · exact .excused (i := none) ⟨rfl, rfl⟩ hendless
    · refine .lost ⟨none, nofun, fun hmemory => hends ?_⟩
      dsimp only [Option.getD_none] at hmemory
      rw [hfirst] at hendless hmemory
      exact ⟨hendless, hmemory⟩

/-- If the recursion that is not guarded comes to an end, no alias is met again while it is being expanded: that alias
would come to its end within less depth than it needs. -/
theorem guardedWithin (hv : v.Sound) (n : Nat) : v.GuardedWithin n := by
  induction n using Nat.strong_induction_on with
  | _ n ih =>
  intro depth hn hdepth env henv hexpanding type mode
  cases n with
  | zero =>
    refine .excuse (i := none) (fun _ => ⟨rfl, rfl⟩) ?_
    rw [hn]
    rfl
  | succ n =>
    obtain ⟨inner, rfl, hinner⟩ := exists_inner hdepth
    have hn : inner none = n := Nat.succ.inj hn
    have hwithin := ih n (Nat.lt_succ_self n) inner hn hinner
    refine lockstep_resolver_succ v.watched_loadsAlike v.watched_remembers
      (henv.names.holds.file_mem fun p => hv.packages) (P := v.SiteAt env) (fun _ _ => henv.lookupNear)
      (fun _ hp _ _ => siteAt_of_mem env hp) (fun site hsite args => ?_) mode
      fun t _ mode => hwithin henv (fun place hplace d hd => hexpanding place hplace d (by omega)) t mode
    cases halias : site.decl.isAlias with
    | true =>
      exact v.lockstep_expandAlias hv hn hinner (fun k hk => ih k (Nat.lt_succ_of_le hk)) henv hexpanding hsite args halias
    | false =>
      exact lockstep_enterType args halias fun _ => hwithin (henv.enteringType hsite args) nofun _ _

/-- A run for a type before a literal that comes to an end without a guard comes to one with it. -/
theorem Sound.guarded_ends (hv : v.Sound) {type : TypeExpr} {mode : Mode} (hs : s.FlagDown)
    (hends : v.Ends depth (v.scope.env v.beside) type mode s) :
    (resolver v.tree true depth (v.scope.env v.beside) type mode s).1 ≠ .error .endless := by
  let recalling : Session := ⟨v.memory, [], []⟩
  have hrecalls : v.Recalls recalling := ⟨by simp [recalling, Session.FlagDown], rfl⟩
  have hfirst : v.Ends depth (v.scope.env v.beside) type mode recalling :=
    Ends.replay (v.scope.env v.beside) (fun _ => []) hends (fun _ => .inl fun _ => rfl) hs hrecalls
  have hstep := v.guardedWithin hv depth (fun _ => depth) rfl (fun _ => Nat.le_refl _) envAt_scope nofun type mode
  have htogether : v.watched.together fun i => i.elim recalling fun _ => s := by
    refine ⟨?_, ?_, ?_⟩
    · rintro (_ | _)
      · exact hrecalls.flagDown
      · exact hs
    · rintro _ rfl
      rfl
    · rintro (_ | _) (_ | _) hi hj
      · exact absurd rfl hi
      · exact absurd rfl hi
      · exact absurd rfl hj
      · rfl
  cases hstep _ htogether with
  | lost hlost =>
    obtain ⟨(_ | _ | _), hwatched, hlost⟩ := hlost
    · exact absurd hfirst.memory hlost
    · exact absurd hends.memory hlost
    · exact absurd rfl hwatched
  | excused hexcused hrun =>
    obtain ⟨rfl, rfl⟩ := hexcused
    exact absurd hrun hfirst.ends
  | @stopped e s' _ _ hrun =>
    have hsecond : resolver v.tree false depth _ type mode s = (.error e, s' (some false)) := hrun (some false)
    have hthird : resolver v.tree true depth _ type mode s = (.error e, s' (some true)) := hrun (some true)
    rw [hthird]
    have hends := hends.ends
    rwa [hsecond] at hends
  | @answered t s' _ _ _ hrun =>
    have hthird : resolver v.tree true depth _ type mode s = (.ok (t (some true)), s' (some true)) := hrun (some true)
    rw [hthird]
    nofun

end World

/-! ## Literals -/

theorem resolver_keepsSources (tree : FileTree) (guarded : Bool) (depth : Nat) (env : Env) (type : TypeExpr)
    (mode : Mode) : Resolution.KeepsSources tree (resolver tree guarded depth env type mode) := by
  induction depth generalizing env type mode with
  | zero => exact ⟨id⟩
  | succ depth ih => exact (keepsSources_steps tree).resolveForm ih _ type mode

end LiteralFill
