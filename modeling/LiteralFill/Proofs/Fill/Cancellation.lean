import LiteralFill.Proofs.Fill.Filling
import LiteralFill.Proofs.Fill.Forwarding
import LiteralFill.Proofs.Fill.Imports

/-!
What a raised cancel flag does to a request. Every part of a request that finds the flag up ends as cancelled at
once, and every part that does not goes on as if there were no flag; so a request as a whole is cancelled, or it
ends as it would have ended undisturbed.
-/

namespace LiteralFill

variable {α β : Type}

/-! ## Parts of a request -/

/-- The session with a flag that stays down. -/
def Session.calm (s : Session) : Session := { s with cancel := [] }

/-- How a part of a request ends that is to end with `c` when it finds the flag up. The first answers that the flag
has to give are those that were read. -/
structure Heeded (c : α) (run : Session → α × Session) (s : Session) (read : List Bool) : Prop where
  cancel : s.cancel = read ++ (run s).2.cancel
  ends : (run s).1 = c ↔ true ∈ read
  undisturbed : true ∉ read → run s.calm = ((run s).1, (run s).2.calm)

/-- A part of a request that ends with `c` exactly when it finds the flag up. -/
structure HeedsFlag (c : α) (run : Session → α × Session) : Prop where
  heeded (s : Session) : ∃ read, Heeded c run s read

namespace HeedsFlag

theorem poll : HeedsFlag true Session.poll := by
  refine ⟨fun s => ?_⟩
  cases hcancel : s.cancel with
  | nil =>
    have hpoll : s.poll = (false, s) := by
      unfold Session.poll
      rw [hcancel]
    refine ⟨[], ?_, ?_, fun _ => ?_⟩
    · rw [hpoll, List.nil_append]
    · simp [hpoll]
    · rw [hpoll]
      rfl
  | cons up rest =>
    have hpoll : s.poll = (up, { s with cancel := rest }) := by
      unfold Session.poll
      rw [hcancel]
    refine ⟨[up], ?_, ?_, fun hdown => ?_⟩
    · rw [hpoll, hcancel]
      rfl
    · simp [hpoll, eq_comm]
    · obtain rfl : up = false := by simpa using hdown
      rw [hpoll]
      rfl

theorem of_eq {c : α} {run run' : Session → α × Session} (h : HeedsFlag c run') (heq : ∀ s, run s = run' s) :
    HeedsFlag c run := by
  rwa [funext heq]

/-- A part that does not read the flag, and whose answer does not depend on it. -/
theorem of_calm {c : α} {run : Session → α × Session} (hne : ∀ s, (run s).1 ≠ c)
    (hcancel : ∀ s, (run s).2.cancel = s.cancel) (hcalm : ∀ s, run s.calm = ((run s).1, (run s).2.calm)) :
    HeedsFlag c run := by
  refine ⟨fun s => ⟨[], ?_, ?_, fun _ => hcalm s⟩⟩
  · rw [hcancel, List.nil_append]
  · simp [hne s]

theorem give {c a : α} (h : a ≠ c) : HeedsFlag c fun s => (a, s) :=
  of_calm (fun _ => h) (fun _ => rfl) fun _ => rfl

/-- One part after another. -/
theorem andThen {c : α} {d : β} {run : Session → α × Session} {f : α → Session → β × Session}
    {whole : Session → β × Session} (hrun : HeedsFlag c run) (hnext : ∀ a, a ≠ c → HeedsFlag d (f a))
    (hc : ∀ s, f c s = (d, s)) (heq : ∀ s, whole s = f (run s).1 (run s).2) : HeedsFlag d whole := by
  refine of_eq ⟨fun s => ?_⟩ heq
  obtain ⟨read, hread⟩ := hrun.heeded s
  by_cases hup : true ∈ read
  · have hend : f (run s).1 (run s).2 = (d, (run s).2) := by rw [hread.ends.mpr hup, hc]
    refine ⟨read, ?_, ?_, fun hdown => absurd hup hdown⟩
    · rw [hend]
      exact hread.cancel
    · rw [hend]
      exact iff_of_true rfl hup
  · obtain ⟨more, hmore⟩ := (hnext (run s).1 fun h => hup (hread.ends.mp h)).heeded (run s).2
    refine ⟨read ++ more, ?_, ?_, fun hdown => ?_⟩
    · rw [List.append_assoc, ← hmore.cancel]
      exact hread.cancel
    · rw [hmore.ends, List.mem_append, or_iff_right hup]
    · have hcalm := hread.undisturbed hup
      show f (run s.calm).1 (run s.calm).2 = _
      rw [hcalm]
      exact hmore.undisturbed fun h => hdown (List.mem_append_right _ h)

/-- A part whose answer is changed. -/
theorem map {c : α} {d : β} {run : Session → α × Session} (g : α → β) (hrun : HeedsFlag c run) (hc : g c = d)
    (hg : ∀ a, a ≠ c → g a ≠ d) : HeedsFlag d fun s => (g (run s).1, (run s).2) :=
  hrun.andThen (fun a ha => give (hg a ha)) (fun s => by rw [hc]) fun _ => rfl

end HeedsFlag

/-! ## Resolution -/

/-- What follows a step of resolution, unless it has stopped. -/
def Resolution.goOn (f : α → Resolution β) : Except ResolveError α → Resolution β
  | .ok a => f a
  | .error e => Resolution.stop e

theorem Resolution.bind_eq_goOn (r : Resolution α) (f : α → Resolution β) :
    ∀ s, (r >>= f) s = goOn f (r s).1 (r s).2 := by
  intro s
  show r.andThen f s = _
  unfold andThen
  rcases r s with ⟨result, s'⟩
  cases result <;> rfl

/-- A step of resolution that is cancelled exactly when it finds the flag up. -/
def Resolution.IsCancellable (r : Resolution α) : Prop := HeedsFlag (.error .cancelled) r

namespace Resolution.IsCancellable

theorem give (a : α) : IsCancellable (Resolution.give a) := HeedsFlag.give nofun

theorem stop {e : ResolveError} (he : e ≠ .cancelled) : IsCancellable (Resolution.stop e : Resolution α) :=
  HeedsFlag.give fun h => he (Except.error.inj h)

theorem bind {r : Resolution α} {f : α → Resolution β} (hr : IsCancellable r) (hf : ∀ a, IsCancellable (f a)) :
    IsCancellable (r >>= f) := by
  have hnext : ∀ result, result ≠ .error .cancelled → IsCancellable (Resolution.goOn f result)
    | .ok a, _ => hf a
    | .error _, he => .stop fun h => he (congrArg _ h)
  exact HeedsFlag.andThen hr hnext (fun _ => rfl) (Resolution.bind_eq_goOn r f)

theorem checkCancelled : IsCancellable Resolution.checkCancelled := by
  have heq : Resolution.checkCancelled = fun s => (if s.poll.1 then .error .cancelled else .ok (), s.poll.2) := by
    funext s
    unfold Resolution.checkCancelled
    rcases s.poll with ⟨up, s'⟩
    cases up <;> rfl
  rw [heq]
  refine HeedsFlag.poll.map (fun up => (if up then .error .cancelled else .ok () : Except ResolveError Unit)) rfl
    fun up hup => ?_
  obtain rfl : up = false := by simpa using hup
  nofun

theorem load (tree : FileTree) (path : String) : IsCancellable (Resolution.load tree path) :=
  checkCancelled.bind fun _ => HeedsFlag.of_calm (fun _ => nofun) (fun _ => rfl) fun _ => rfl

theorem loadDir (tree : FileTree) (dir : Path) : IsCancellable (Resolution.loadDir tree dir) :=
  checkCancelled.bind fun _ => HeedsFlag.of_calm (fun _ => nofun) (fun _ => rfl) fun _ => rfl

end Resolution.IsCancellable

open Resolution (IsCancellable)

/-- The resolver that reads the declarations is cancelled exactly when it finds the flag up. -/
theorem isCancellable_resolveStruct (tree : FileTree) (scope : Scope) (type : TypeExpr) :
    IsCancellable (resolveStruct tree scope type) :=
  (⟨.give, .stop, .bind, .load tree, .loadDir tree⟩ : KeptBySteps tree fun r => IsCancellable r).resolveStruct
    scope type

/-! ## Literals -/

/-- Fields are merged up to the first zero value before which the flag is up. -/
theorem mergeFields_heedsFlag (file : SourceFile) (z : Synthesizer) (samePackage : Bool)
    (supplied : List (Nat × Element)) (fields : List (Field Ty)) (index : Nat) :
    HeedsFlag none (mergeFields file z samePackage supplied index fields) := by
  induction fields generalizing index with
  | nil => exact .give nofun
  | cons f rest ih =>
    have hrest (g : List MergedEntry × PathSet → List MergedEntry × PathSet) : HeedsFlag none fun s =>
        ((mergeFields file z samePackage supplied (index + 1) rest s).1.map g,
          (mergeFields file z samePackage supplied (index + 1) rest s).2) :=
      (ih (index + 1)).map (Option.map g) rfl fun a ha h => ha (Option.map_eq_none_iff.mp h)
    cases hsupplied : supplied.lookup index with
    | some e => exact (hrest _).of_eq (mergeFields_supplied hsupplied)
    | none =>
      cases hset : f.exported || samePackage with
      | false => exact (ih (index + 1)).of_eq (mergeFields_hidden hsupplied hset)
      | true =>
        have hzero : ∀ up, up ≠ true → HeedsFlag none (mergeZero file z samePackage supplied index f rest up)
          | false, _ => hrest _
          | true, h => absurd rfl h
        exact HeedsFlag.poll.andThen hzero (fun _ => rfl) (mergeFields_zero hsupplied hset)

theorem merge_heedsFlag (file : SourceFile) (literal : CompositeLiteral) (resolved : ResolvedStruct)
    (z : Synthesizer) : HeedsFlag (.ok none) (merge file literal resolved z) := by
  cases hmatched : matchElements resolved.fields literal (file.slice literal.typeSpan) with
  | error e =>
    have hstop : HeedsFlag (.ok none) fun s => ((.error e : Except FillError (Option Merged)), s) :=
      .give (by simp)
    refine hstop.of_eq fun s => ?_
    rw [merge, hmatched]
  | ok supplied =>
    have hfields := mergeFields_heedsFlag file z (resolved.packagePath == z.packagePath) supplied resolved.fields 0
    refine (hfields.map (mergedWith literal) rfl fun a ha => ?_).of_eq (merge_of_matched hmatched z)
    cases a with
    | none => exact absurd rfl ha
    | some a => simp [mergedWith]

theorem outcomeOfMerge_ne_cancelled (r : FillRequest) (options : FillOptions) (literal : CompositeLiteral) :
    ∀ merged, merged ≠ .ok none → outcomeOfMerge r options literal merged ≠ .stopped .cancelled
  | .error _, _ => nofun
  | .ok none, h => absurd rfl h
  | .ok (some _), _ => nofun

theorem fillResolved_heedsFlag (r : FillRequest) (options : FillOptions) (literal : CompositeLiteral)
    (resolved : ResolvedStruct) : HeedsFlag (.stopped .cancelled) (fillResolved r options literal resolved) :=
  ((merge_heedsFlag r.file literal resolved (options.synthesizer r)).map (outcomeOfMerge r options literal) rfl
    (outcomeOfMerge_ne_cancelled r options literal)).of_eq (fillResolved_eq r options literal resolved)

theorem onResolveError_ne_cancelled (r : FillRequest) (literal : CompositeLiteral) {e : ResolveError}
    (he : e ≠ .cancelled) : onResolveError r literal e ≠ .stopped .cancelled := by
  cases e with
  | cancelled => exact absurd rfl he
  | endless => nofun
  | unresolved name => nofun
  | notAStruct name underlying =>
    cases hskips : r.target.skipsOthers <;> simp [onResolveError, hskips]

/-! ## Requests -/

theorem answerOf_ne_cancelled (r : FillRequest) :
    ∀ outcome, outcome ≠ .stopped .cancelled → answerOf r outcome ≠ .cancelled
  | .stopped _, h => fun hc => h (congrArg _ hc)
  | .edited [] _, _ => nofun
  | .edited (_ :: _) _, _ => nofun

theorem Session.foldl_forward_cancel (paths : List String) (s : Session) :
    (paths.foldl Session.forward s).cancel = s.cancel := by
  induction paths generalizing s with
  | nil => rfl
  | cons path rest ih => exact ih (s.forward path)

theorem Session.foldl_forward_calm (paths : List String) (s : Session) :
    paths.foldl Session.forward s.calm = (paths.foldl Session.forward s).calm := by
  induction paths generalizing s with
  | nil => rfl
  | cons path rest ih => exact ih (s.forward path)

/-- Asking for imports has nothing to do with the flag. -/
theorem foldl_forward_heedsFlag {c a : α} (h : a ≠ c) (paths : List String) :
    HeedsFlag c fun s => (a, paths.foldl Session.forward s) :=
  .of_calm (fun _ => h) (Session.foldl_forward_cancel paths) fun s => by rw [Session.foldl_forward_calm]

section

variable {resolve : StructResolver} (hresolve : ∀ scope type, IsCancellable (resolve scope type)) (r : FillRequest)
  (options : FillOptions)
include hresolve

theorem fillLiteral_heedsFlag (literal : CompositeLiteral) :
    HeedsFlag (.stopped .cancelled) (fillLiteral resolve r options literal) := by
  have hfound : ∀ result, result ≠ .error .cancelled → HeedsFlag (.stopped .cancelled) (fillFound r options literal result)
    | .error _, he => .give (onResolveError_ne_cancelled r literal fun h => he (congrArg _ h))
    | .ok resolved, _ => fillResolved_heedsFlag r options literal resolved
  have hpolled : ∀ up, up ≠ true → HeedsFlag (.stopped .cancelled) (fillPolled resolve r options literal up)
    | false, _ => (hresolve ..).andThen hfound (fun _ => rfl) fun _ => rfl
    | true, h => absurd rfl h
  exact HeedsFlag.poll.andThen hpolled (fun _ => rfl) (fillLiteral_eq resolve r options literal)

theorem fillLiterals_heedsFlag (literals : List CompositeLiteral) :
    HeedsFlag (.stopped .cancelled) (fillLiterals resolve r options literals) := by
  induction literals with
  | nil => exact .give nofun
  | cons literal rest ih =>
    have hrest : ∀ outcome, outcome ≠ .stopped .cancelled →
        HeedsFlag (.stopped .cancelled) (fillRest resolve r options rest outcome)
      | .stopped _, h => .give fun hc => h (congrArg _ (LiteralsOutcome.stopped.inj hc))
      | .leftAlone, _ => ih
      | .edited edit paths, _ => ih.map (outcomeBehind edit paths) rfl fun outcome h => by
        cases outcome with
        | stopped outcome => exact h
        | edited edits more => nofun
    exact (fillLiteral_heedsFlag hresolve r options literal).andThen hrest (fun _ => rfl)
      (fillLiterals_cons resolve r options literal rest)

theorem fill_heedsFlag : HeedsFlag .cancelled (fill resolve r options) := by
  cases hlocate : locate r.file r.target with
  | error e =>
    have hfailed : HeedsFlag .cancelled fun s => (FillOutcome.failed e, s) := .give nofun
    refine hfailed.of_eq fun s => ?_
    unfold fill
    rw [hlocate]
  | ok literals =>
    have hanswer (outcome : LiteralsOutcome) (h : outcome ≠ .stopped .cancelled) :
        HeedsFlag .cancelled fun s => (answerOf r outcome, (askedFor r outcome).foldl Session.forward s) :=
      foldl_forward_heedsFlag (answerOf_ne_cancelled r outcome h) _
    exact (fillLiterals_heedsFlag hresolve r options literals).andThen hanswer (fun _ => rfl)
      (fill_eq hlocate resolve options)

end

/-! ## Where the flag is read -/

/-- A part of a request that reads the flag as often as its weight grows, up to the end of the answers. What it
starts with and what it answers has a weight, and so have the packages it remembers. -/
structure Polls (m : PackageDb → Nat) (start : Nat) (w : α → Nat) (run : Session → α × Session) (s : Session) : Prop where
  drained : s.cancel = [] → (run s).2.cancel = []
  polls : (run s).2.cancel = [] ∨
    (run s).2.cancel.length + w (run s).1 + m (run s).2.packages ≤ s.cancel.length + start + m s.packages

namespace Polls

variable {m : PackageDb → Nat} {start : Nat} {w : α → Nat} {run : Session → α × Session} {s : Session}

theorem give {a : α} (h : w a ≤ start) : Polls m start w (fun s => (a, s)) s :=
  ⟨id, .inr (by dsimp only; omega)⟩

theorem poll : Polls m 0 (fun _ => 1) Session.poll s := by
  unfold Session.poll
  cases hcancel : s.cancel with
  | nil => exact ⟨fun _ => by simp [hcancel], .inl (by simp [hcancel])⟩
  | cons up rest => exact ⟨fun h => absurd h (by simp [hcancel]), .inr (by simp [hcancel])⟩

theorem shift (h : Polls m 0 w run s) (k : Nat) : Polls m k (fun a => w a + k) run s :=
  ⟨h.drained, h.polls.imp_right fun h => by omega⟩

theorem mono {w' : α → Nat} (h : Polls m start w run s) (hw : ∀ a, w' a ≤ w a) : Polls m start w' run s :=
  ⟨h.drained, h.polls.imp_right fun h => by have := hw (run s).1; omega⟩

/-- One part after another. -/
theorem andThen {f : α → Session → β × Session} {w' : β → Nat} {whole : Session → β × Session}
    (hrun : Polls m start w run s) (hnext : Polls m (w (run s).1) w' (f (run s).1) (run s).2)
    (heq : whole s = f (run s).1 (run s).2) : Polls m start w' whole s := by
  refine ⟨fun h => ?_, ?_⟩ <;> rw [heq]
  · exact hnext.drained (hrun.drained h)
  · rcases hnext.polls with h | h
    · exact .inl h
    · rcases hrun.polls with hdrained | hread
      · exact .inl (hnext.drained hdrained)
      · exact .inr (by omega)

/-- A part whose answer is changed. -/
theorem map {g : α → β} {w' : β → Nat} {whole : Session → β × Session} (hrun : Polls m start w run s)
    (hw : ∀ a, w' (g a) ≤ w a) (heq : whole s = (g (run s).1, (run s).2)) : Polls m start w' whole s :=
  hrun.andThen (f := fun a s => (g a, s)) (give (hw _)) heq

end Polls

/-- The weight of what is remembered grows by one at most with each package. -/
structure CountsLoads (tree : FileTree) (m : PackageDb → Nat) : Prop where
  load (db : PackageDb) (path : String) : m (db.load tree path).2 ≤ m db + 1
  loadDir (db : PackageDb) (dir : Path) : m (db.loadDir tree dir).2 ≤ m db + 1

theorem readDir_byPath (tree : FileTree) (path : String) (dir : Path) (db : PackageDb) :
    (db.readDir tree path dir).2.byPath = db.byPath := by
  unfold PackageDb.readDir
  split <;> rfl

theorem readDir_byDir_length (tree : FileTree) (path : String) (dir : Path) (db : PackageDb) :
    (db.readDir tree path dir).2.byDir.length ≤ db.byDir.length + 1 := by
  unfold PackageDb.readDir
  split <;> simp

/-- Each package that is loaded adds one import path at most to those that are remembered. -/
theorem countsLoads_byPath (tree : FileTree) : CountsLoads tree (·.byPath.length) where
  load db path := by
    have hread : (db.readFor tree path).2.byPath = db.byPath := by
      cases hdir : db.dirFor tree path with
      | none => rw [PackageDb.readFor_of_none hdir]
      | some dir => rw [PackageDb.readFor_of_some hdir, readDir_byPath]
    cases hseen : db.byPath.lookup path with
    | some package => simp [PackageDb.load_of_remembered tree hseen]
    | none => simp [PackageDb.load_of_new hseen, hread]
  loadDir db dir := by
    rw [PackageDb.loadDir, readDir_byPath]
    exact Nat.le_succ _

/-- Each package that is loaded adds one directory at most to those that are remembered. -/
theorem countsLoads_byDir (tree : FileTree) : CountsLoads tree (·.byDir.length) where
  load db path := by
    cases hseen : db.byPath.lookup path with
    | some package => simp [PackageDb.load_of_remembered tree hseen]
    | none =>
      rw [PackageDb.load_of_new hseen]
      cases hdir : db.dirFor tree path with
      | none => simp [PackageDb.readFor_of_none hdir]
      | some dir =>
        rw [PackageDb.readFor_of_some hdir]
        exact readDir_byDir_length ..
  loadDir db dir := readDir_byDir_length ..

/-- A step of resolution that reads the flag before each package. -/
structure Resolution.PollsPerLoad (m : PackageDb → Nat) (r : Resolution α) : Prop where
  polls (s : Session) : Polls m 0 (fun _ => 0) r s

namespace Resolution.PollsPerLoad

variable {m : PackageDb → Nat}

theorem give (a : α) : PollsPerLoad m (Resolution.give a) := ⟨fun _ => Polls.give (Nat.le_refl _)⟩

theorem stop (e : ResolveError) : PollsPerLoad m (Resolution.stop e : Resolution α) :=
  ⟨fun _ => Polls.give (Nat.le_refl _)⟩

theorem bind {r : Resolution α} {f : α → Resolution β} (hr : PollsPerLoad m r) (hf : ∀ a, PollsPerLoad m (f a)) :
    PollsPerLoad m (r >>= f) := by
  refine ⟨fun s => (hr.polls s).andThen (f := Resolution.goOn f) ?_ (Resolution.bind_eq_goOn r f s)⟩
  cases (r s).1 with
  | ok a => exact (hf a).polls _
  | error e => exact (stop e).polls _

/-- The flag is read, and then a package is loaded. -/
theorem polled {f : PackageDb → α × PackageDb} (hf : ∀ db, m (f db).2 ≤ m db + 1) :
    PollsPerLoad m (Resolution.checkCancelled >>= fun _ => Resolution.ask f) := by
  refine ⟨fun s => ?_⟩
  have hask (s : Session) : Polls m 1 (fun _ => 0) (Resolution.ask f) s := by
    refine ⟨id, .inr ?_⟩
    have hm : m (Resolution.ask f s).2.packages ≤ m s.packages + 1 := hf s.packages
    have hcancel : (Resolution.ask f s).2.cancel = s.cancel := rfl
    rw [hcancel]
    omega
  have hstop (s : Session) : Polls m 1 (fun _ => 0) (Resolution.stop .cancelled : Resolution α) s :=
    Polls.give (Nat.zero_le _)
  refine (Polls.poll (s := s)).andThen (f := fun up => if up then Resolution.stop .cancelled else Resolution.ask f)
    ?_ ?_
  · cases s.poll.1 with
    | true => exact hstop _
    | false => exact hask _
  · rw [Resolution.bind_eq_goOn, Resolution.checkCancelled]
    rcases s.poll with ⟨_ | _, s⟩ <;> rfl

end Resolution.PollsPerLoad

open Resolution (PollsPerLoad)

theorem pollsPerLoad_resolveStruct {tree : FileTree} {m : PackageDb → Nat} (hm : CountsLoads tree m) (scope : Scope)
    (type : TypeExpr) : PollsPerLoad m (resolveStruct tree scope type) :=
  (⟨.give, fun _ => .stop _, .bind, fun path => .polled fun db => hm.load db path,
    fun dir => .polled fun db => hm.loadDir db dir⟩ : KeptBySteps tree fun r => PollsPerLoad m r).resolveStruct scope type

/-- Fields are merged with a read before each zero value. -/
theorem mergeFields_polls (m : PackageDb → Nat) (file : SourceFile) (z : Synthesizer) (samePackage : Bool)
    (supplied : List (Nat × Element)) (fields : List (Field Ty)) (index : Nat) (s : Session) :
    Polls m 0 (·.elim 0 fun _ => (zeroedTypes samePackage supplied index fields).length)
      (mergeFields file z samePackage supplied index fields) s := by
  unfold zeroedTypes
  induction fields generalizing index s with
  | nil => exact Polls.give (Nat.le_refl _)
  | cons f rest ih =>
    unfold unsetFields
    cases hsupplied : supplied.lookup index with
    | some e =>
      refine (ih (index + 1) s).map (fun merged => ?_) (mergeFields_supplied hsupplied s)
      cases merged <;> simp
    | none =>
      cases hset : f.exported || samePackage with
      | false =>
        refine (ih (index + 1) s).map (g := id) (fun merged => ?_) (mergeFields_hidden hsupplied hset s)
        cases merged <;> simp [hset]
      | true =>
        refine Polls.poll.andThen ?_ (mergeFields_zero hsupplied hset s)
        cases s.poll.1 with
        | true => exact Polls.give (Nat.zero_le _)
        | false =>
          refine ((ih (index + 1) s.poll.2).shift 1).map (fun merged => ?_) rfl
          cases merged <;> simp [hset, entryFirst]

/-- The weight of a literal that does not end the request. -/
def LiteralOutcome.weight (n : Nat) : LiteralOutcome → Nat
  | .stopped _ => 0
  | _ => n

theorem LiteralOutcome.weight_add_le (n k : Nat) (outcome : LiteralOutcome) :
    outcome.weight (n + k) ≤ outcome.weight n + k := by
  cases outcome <;> simp [weight]

/-- The weight of literals that do not end the request. -/
def LiteralsOutcome.weight (n : Nat) : LiteralsOutcome → Nat
  | .stopped _ => 0
  | .edited _ _ => n

theorem LiteralsOutcome.weight_add_le (n k : Nat) (outcome : LiteralsOutcome) :
    outcome.weight (n + k) ≤ outcome.weight n + k := by
  cases outcome <;> simp [weight]

theorem fillResolved_polls (m : PackageDb → Nat) (r : FillRequest) (options : FillOptions) (literal : CompositeLiteral)
    (resolved : ResolvedStruct) (s : Session) :
    Polls m 0 (LiteralOutcome.weight (resolvedZeros r options literal resolved).length)
      (fillResolved r options literal resolved) s := by
  have hmerge : Polls m 0 (fun merged => (outcomeOfMerge r options literal merged).weight
      (resolvedZeros r options literal resolved).length) (merge r.file literal resolved (options.synthesizer r)) s := by
    unfold resolvedZeros
    cases hmatched : matchElements resolved.fields literal (r.file.slice literal.typeSpan) with
    | error e =>
      have hmerge (s : Session) : merge r.file literal resolved (options.synthesizer r) s = (.error e, s) := by
        rw [merge, hmatched]
      rw [funext hmerge]
      exact Polls.give (Nat.le_refl _)
    | ok supplied =>
      refine (mergeFields_polls m ..).map (fun found => ?_) (merge_of_matched hmatched _ s)
      cases found <;> exact Nat.le_refl _
  exact hmerge.map (fun _ => Nat.le_refl _) (fillResolved_eq r options literal resolved s)

section

variable {m : PackageDb → Nat} {resolve : StructResolver} (hresolve : ∀ scope type, PollsPerLoad m (resolve scope type))
  (r : FillRequest) (options : FillOptions)
include hresolve

theorem fillLiteral_polls (literal : CompositeLiteral) (s : Session) :
    Polls m 0 (LiteralOutcome.weight (1 + (literalZeros resolve r options literal s).length))
      (fillLiteral resolve r options literal) s := by
  refine Polls.poll.andThen ?_ (fillLiteral_eq resolve r options literal s)
  cases s.poll.1 with
  | true => exact Polls.give (Nat.zero_le _)
  | false =>
    refine (((hresolve ..).polls s.poll.2).shift 1).andThen (f := fillFound r options literal) ?_ rfl
    unfold literalZeros
    cases (resolve ⟨r.file, r.path, r.packagePath, literal.lbrace⟩ literal.type s.poll.2).1 with
    | error e =>
      refine Polls.give ?_
      cases onResolveError r literal e <;> simp [LiteralOutcome.weight]
    | ok resolved =>
      rw [Nat.add_comm 1]
      exact ((fillResolved_polls m r options literal resolved _).shift 1).mono (LiteralOutcome.weight_add_le _ _)

theorem fillLiterals_polls (literals : List CompositeLiteral) (s : Session) :
    Polls m 0 (LiteralsOutcome.weight (literals.length + (literalsZeros resolve r options literals s).length))
      (fillLiterals resolve r options literals) s := by
  induction literals generalizing s with
  | nil => exact Polls.give (Nat.le_refl _)
  | cons literal rest ih =>
    refine (fillLiteral_polls hresolve r options literal s).andThen ?_ (fillLiterals_cons resolve r options literal rest s)
    have hweight : (literal :: rest).length + (literalsZeros resolve r options (literal :: rest) s).length =
        (rest.length + (literalsZeros resolve r options rest (fillLiteral resolve r options literal s).2).length) +
          (1 + (literalZeros resolve r options literal s).length) := by
      rw [literalsZeros, List.length_cons, List.length_append]
      omega
    have hrest := (ih (fillLiteral resolve r options literal s).2).shift
      (1 + (literalZeros resolve r options literal s).length)
    rw [hweight]
    cases (fillLiteral resolve r options literal s).1 with
    | stopped outcome => exact Polls.give (Nat.zero_le _)
    | leftAlone => exact hrest.mono (LiteralsOutcome.weight_add_le _ _)
    | edited edit paths =>
      refine hrest.map (g := outcomeBehind edit paths) (fun outcome => ?_) rfl
      cases outcome with
      | stopped outcome => exact Nat.zero_le _
      | edited edits more => exact LiteralsOutcome.weight_add_le _ _ (.edited edits more)

end

/-- A request asks for imports only when it has output. -/
theorem fill_forwarded {resolve : StructResolver} (hresolve : ∀ scope type, (resolve scope type).AsksNothing)
    {r : FillRequest} {options : FillOptions} {s : Session}
    (h : ∀ output, (fill resolve r options s).1 ≠ .filled output) :
    (fill resolve r options s).2.forwarded = s.forwarded := by
  cases hlocate : locate r.file r.target with
  | error e =>
    unfold fill
    rw [hlocate]
  | ok literals =>
    rw [fill_eq hlocate] at h ⊢
    have hquiet := fillLiterals_forwarded hresolve r options literals s
    generalize fillLiterals resolve r options literals s = run at h hquiet ⊢
    rcases run with ⟨⟨_ | _, _⟩ | _, _⟩
    · exact hquiet
    · exact absurd rfl (h _)
    · exact hquiet

/-- The flag is read before each literal, each zero value and each package, as long as there are answers. -/
theorem fill_polls {m : PackageDb → Nat} {resolve : StructResolver}
    (hresolve : ∀ scope type, PollsPerLoad m (resolve scope type)) {r : FillRequest} {options : FillOptions}
    {s s' : Session} {output : FillOutput} {literals : List CompositeLiteral}
    (hlocate : locate r.file r.target = .ok literals) (h : fill resolve r options s = (.filled output, s'))
    (hleft : s'.cancel ≠ []) : s'.cancel.length + (literals.length + (fillZeros resolve r options s).length) +
      m s'.packages ≤ s.cancel.length + m s.packages := by
  obtain ⟨literals', edits, paths, s₁, hlocate', hliterals, -, -, hs'⟩ := fill_eq_filled h
  obtain rfl : literals = literals' := Except.ok.inj (hlocate.symm.trans hlocate')
  have hzeros : fillZeros resolve r options s = literalsZeros resolve r options literals s := by rw [fillZeros, hlocate]
  have hpolls := (fillLiterals_polls hresolve r options literals s).polls
  rw [hliterals] at hpolls
  rw [hzeros, hs', Session.foldl_forward_packages, Session.foldl_forward_cancel]
  rw [hs', Session.foldl_forward_cancel] at hleft
  exact hpolls.resolve_left hleft

/-- A request is not cancelled without a flag. -/
theorem fill_ne_cancelled (tree : FileTree) (r : FillRequest) (options : FillOptions) {s : Session} (h : s.cancel = []) :
    (fill (resolveStruct tree) r options s).1 ≠ .cancelled := by
  obtain ⟨read, hread⟩ := (fill_heedsFlag (isCancellable_resolveStruct tree) r options).heeded s
  obtain ⟨rfl, -⟩ : read = [] ∧ _ := List.append_eq_nil_iff.mp (hread.cancel.symm.trans h)
  exact fun hcancelled => absurd (hread.ends.mp hcancelled) List.not_mem_nil

/-- A request ends as cancelled when it reads that the flag is up, and otherwise as it does with a flag that stays
down. It asks for imports only when it has output; the flag was then read before each literal, each zero value and
each package, as long as there were answers. -/
theorem fill_cancellation (tree : FileTree) (r : FillRequest) (options : FillOptions) (s : Session) :
    let run := fill (resolveStruct tree) r options s
    let calm := fill (resolveStruct tree) r options s.calm
    calm.1 ≠ .cancelled ∧ ∃ read, s.cancel = read ++ run.2.cancel ∧
      (run.1 = .cancelled ↔ true ∈ read) ∧
      (true ∉ read → run.1 = calm.1 ∧ run.2.packages = calm.2.packages ∧ run.2.forwarded = calm.2.forwarded) ∧
      ((∀ output, run.1 ≠ .filled output) → run.2.forwarded = s.forwarded) ∧
      ∀ output literals, run.1 = .filled output → locate r.file r.target = .ok literals → run.2.cancel ≠ [] →
        let places := literals.length + (fillZeros (resolveStruct tree) r options s).length
        places + run.2.packages.byPath.length ≤ read.length + s.packages.byPath.length ∧
          places + run.2.packages.byDir.length ≤ read.length + s.packages.byDir.length := by
  intro run calm
  have hheeds := fill_heedsFlag (isCancellable_resolveStruct tree) r options
  obtain ⟨read, hread⟩ := hheeds.heeded s
  refine ⟨fill_ne_cancelled tree r options rfl, read, hread.cancel, hread.ends, fun hdown => ?_,
    fill_forwarded (asksNothing_resolveStruct tree), ?_⟩
  · have hcalm : calm = (run.1, run.2.calm) := hread.undisturbed hdown
    rw [hcalm]
    exact ⟨rfl, rfl, rfl⟩
  · intro output literals hfilled hlocate hleft places
    have hrun : run = (.filled output, run.2) := Prod.ext hfilled rfl
    have hlength : s.cancel.length = read.length + run.2.cancel.length := by
      rw [← List.length_append, ← hread.cancel]
    have hpaths := fill_polls (pollsPerLoad_resolveStruct (countsLoads_byPath tree)) hlocate hrun hleft
    have hdirs := fill_polls (pollsPerLoad_resolveStruct (countsLoads_byDir tree)) hlocate hrun hleft
    exact ⟨by omega, by omega⟩

end LiteralFill
