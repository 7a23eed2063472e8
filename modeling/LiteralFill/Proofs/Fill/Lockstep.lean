import LiteralFill.Proofs.Fill.Growth
import LiteralFill.Proofs.Reading.Sizes

/-!
Runs in step with one another. The same step is run in several settings, each with its own tree, names and
session; the settings stop together, or all answer and the answers belong together. What has to be shown of the
settings are the look-ups and what becomes of a declaration that is found: the forms of types then follow.
-/

namespace LiteralFill

open Resolution (give stop forEach Grows)

variable {ι α β : Type}

/-! ## Steps -/

/-- What runs are compared up to: the sessions that belong together, and when nothing is claimed, because a
session is lost or a run stops with an error, in a session, that excuses it. -/
structure Frame (ι : Type) where
  together : (ι → Session) → Prop
  lost : (ι → Session) → Prop
  excused : ι → ResolveError → Session → Prop
  lost_grows {s s' : ι → Session} : (∀ i, (s i).GrowsTo (s' i)) → lost s → lost s'

/-- What the packages of a run have that is not in a memory, they still have later. -/
theorem not_growsTo_of_grows {memory : PackageDb} {i : ι} {s s' : ι → Session} (hg : ∀ i, (s i).GrowsTo (s' i))
    (h : ¬ (s i).packages.GrowsTo memory) : ¬ (s' i).packages.GrowsTo memory :=
  fun hmemory => h ((hg i).packages.trans hmemory)

/-- The same, for sessions that have grown from given ones. -/
def Frame.after (F : Frame ι) (s₁ : ι → Session) : Frame ι :=
  { F with together := fun s => F.together s ∧ ∀ i, (s₁ i).GrowsTo (s i) }

theorem Frame.after_comm (F : Frame ι) (s₁ s₂ : ι → Session) :
    (F.after s₁).after s₂ = (F.after s₂).after s₁ := by
  unfold Frame.after
  congr 1
  exact funext fun s => propext and_right_comm

/-- How runs that start from sessions `s` end. -/
inductive Frame.Ends (F : Frame ι) (Q : (ι → α) → (ι → Session) → Prop) (s : ι → Session)
    (x : ι → Except ResolveError α × Session) : Prop
  | lost (h : F.lost fun i => (x i).2)
  | excused {i : ι} {e : ResolveError} (he : F.excused i e (x i).2) (h : (x i).1 = .error e)
  | stopped {e : ResolveError} {s' : ι → Session} (hs : F.together s') (hg : ∀ i, (s i).GrowsTo (s' i))
      (h : ∀ i, x i = (.error e, s' i))
  | answered {a : ι → α} {s' : ι → Session} (hs : F.together s') (hg : ∀ i, (s i).GrowsTo (s' i))
      (hq : Q a s') (h : ∀ i, x i = (.ok (a i), s' i))

/-- From sessions that belong together the runs stop with one error, or all answer as `Q` says. -/
def Lockstep (F : Frame ι) (r : ι → Resolution α) (Q : (ι → α) → (ι → Session) → Prop) : Prop :=
  ∀ s, F.together s → F.Ends Q s fun i => r i (s i)

namespace Lockstep

variable {F : Frame ι} {Q : (ι → α) → (ι → Session) → Prop} {Q' : (ι → β) → (ι → Session) → Prop}

theorem give {a : ι → α} (h : ∀ s, F.together s → Q a s) : Lockstep F (fun i => Resolution.give (a i)) Q :=
  fun s hs => .answered hs (fun i => .refl (s i)) (h s hs) fun _ => rfl

theorem stop (e : ResolveError) : Lockstep F (fun _ => (Resolution.stop e : Resolution α)) Q :=
  fun s hs => .stopped hs (fun i => .refl (s i)) fun _ => rfl

/-- A run that stops with an error that excuses it. -/
theorem excuse {r : ι → Resolution α} {i : ι} {e : ResolveError} (he : ∀ s, F.excused i e s)
    (h : r i = Resolution.stop e) : Lockstep F r Q :=
  fun s _ => .excused (i := i) (he _) (by rw [h]; rfl)

theorem weaken {r : ι → Resolution α} {P : (ι → α) → (ι → Session) → Prop} (h : Lockstep F r P)
    (hPQ : ∀ a s, F.together s → P a s → Q a s) : Lockstep F r Q := by
  intro s hs
  cases h s hs with
  | lost h => exact .lost h
  | excused he h => exact .excused he h
  | stopped hs' hg h => exact .stopped hs' hg h
  | answered hs' hg hq h => exact .answered hs' hg (hPQ _ _ hs' hq) h

/-- What holds of all sessions that belong together holds of those that have grown from given ones. -/
theorem after {r : ι → Resolution α} (h : Lockstep F r Q) (s₁ : ι → Session) : Lockstep (F.after s₁) r Q := by
  rintro s ⟨hs, hg₁⟩
  cases h s hs with
  | lost h => exact .lost h
  | excused he h => exact .excused he h
  | stopped hs' hg h => exact .stopped ⟨hs', fun i => (hg₁ i).trans (hg i)⟩ hg h
  | answered hs' hg hq h => exact .answered ⟨hs', fun i => (hg₁ i).trans (hg i)⟩ hg hq h

theorem bind {r : ι → Resolution α} {f : ι → α → Resolution β} (hr : Lockstep F r Q)
    (hgrows : ∀ i a, (f i a).Grows)
    (hf : ∀ a s₁, F.together s₁ → Q a s₁ → Lockstep (F.after s₁) (fun i => f i (a i)) Q') :
    Lockstep F (fun i => r i >>= f i) Q' := by
  intro s hs
  cases hr s hs with
  | lost h => exact .lost (F.lost_grows (fun i => Grows.after (hgrows i) (s i)) h)
  | @excused i e he h =>
    have hstop : (r i >>= f i) (s i) = (.error e, (r i (s i)).2) :=
      Resolution.bind_of_error (Prod.ext h rfl) (f i)
    refine .excused (i := i) (e := e) ?_ (congrArg (·.1) hstop)
    show F.excused i e ((r i >>= f i) (s i)).2
    rw [hstop]
    exact he
  | @stopped e s' hs' hg h =>
    refine .stopped (e := e) hs' hg fun i => ?_
    show (r i).andThen (f i) (s i) = _
    unfold Resolution.andThen
    rw [h i]
  | @answered a s' hs' hg hq h =>
    have hx : (fun i => (r i >>= f i) (s i)) = fun i => f i (a i) (s' i) :=
      funext fun i => Resolution.bind_of_ok (h i) (f i)
    rw [hx]
    cases hf a s' hs' hq s' ⟨hs', fun i => .refl (s' i)⟩ with
    | lost h => exact .lost h
    | excused he h => exact .excused he h
    | stopped hs'' hg' h => exact .stopped hs''.1 (fun i => (hg i).trans (hg' i)) h
    | answered hs'' hg' hq' h => exact .answered hs''.1 (fun i => (hg i).trans (hg' i)) hq' h

/-- A step for each element of a list: one answer for each of them, together in all settings. -/
theorem forEach {f : ι → α → Resolution β} {T : (ι → β) → Prop} (hgrows : ∀ i a, (f i a).Grows) (as : List α)
    (h : ∀ a ∈ as, Lockstep F (fun i => f i a) fun b _ => T b) :
    Lockstep F (fun i => Resolution.forEach (f i) as) fun bs _ =>
      ∃ l : List (ι → β), (∀ b ∈ l, T b) ∧ bs = fun i => l.map (· i) := by
  induction as generalizing F with
  | nil => exact give fun _ _ => ⟨[], by simp, rfl⟩
  | cons a rest ih =>
    refine (h a List.mem_cons_self).bind (fun i b => .bind (.forEach (hgrows i) rest) fun _ => .give _)
      fun b s₁ _ hb => ?_
    refine (ih fun c hc => (h c (List.mem_cons_of_mem a hc)).after s₁).bind (fun _ _ => .give _) ?_
    rintro _ s₂ - ⟨l, hl, rfl⟩
    refine give fun _ _ => ⟨b :: l, ?_, rfl⟩
    intro c hc
    rcases List.mem_cons.mp hc with rfl | hc
    · exact hb
    · exact hl c hc

/-- The cancel flag is read alike in sessions that have the same answers left. -/
theorem checkCancelled (hcancel : ∀ s, F.together s → ∃ answers, ∀ i, (s i).cancel = answers)
    (hpoll : ∀ s, F.together s → F.together fun i => (s i).poll.2) :
    Lockstep F (fun _ => Resolution.checkCancelled) fun _ _ => True := by
  intro s hs
  obtain ⟨answers, hanswers⟩ := hcancel s hs
  have hup (i : ι) : (s i).poll.1 = (answers.head?).getD false := by
    unfold Session.poll
    rw [hanswers i]
    cases answers <;> rfl
  have hrun (i : ι) : Resolution.checkCancelled (s i) =
      (if (answers.head?).getD false then .error .cancelled else .ok (), (s i).poll.2) := by
    rw [← hup i]
    unfold Resolution.checkCancelled
    cases (s i).poll with
    | mk up s' => cases up <;> rfl
  have hsteps (i : ι) : (s i).GrowsTo (s i).poll.2 := (s i).growsTo_poll
  cases hfirst : (answers.head?).getD false with
  | true =>
    simp only [hfirst, ↓reduceIte] at hrun
    exact .stopped (hpoll s hs) hsteps hrun
  | false =>
    simp only [hfirst, Bool.false_eq_true, ↓reduceIte] at hrun
    exact .answered (hpoll s hs) hsteps trivial hrun

/-- A step for each element of lists that are as long in all settings. -/
theorem forEach_map {g : ι → α → Resolution β} {T : (ι → β) → Prop} (hgrows : ∀ i a, (g i a).Grows)
    {as : List (ι → α)} (h : ∀ a ∈ as, Lockstep F (fun i => g i (a i)) fun b _ => T b) :
    Lockstep F (fun i => Resolution.forEach (g i) (as.map (· i))) fun bs _ =>
      ∃ l : List (ι → β), (∀ b ∈ l, T b) ∧ bs = fun i => l.map (· i) := by
  have hmap (i : ι) : Resolution.forEach (g i) (as.map (· i)) = Resolution.forEach (fun a => g i (a i)) as := by
    clear h
    induction as with
    | nil => rfl
    | cons a rest ih => rw [List.map_cons, Resolution.forEach, Resolution.forEach, ih]
  simp only [hmap]
  exact forEach (fun i a => hgrows i (a i)) as h

end Lockstep

/-! ## Types -/

/-- A field whose type is changed. -/
def Field.map {τ σ : Type} (g : τ → σ) (f : Field τ) : Field σ := ⟨f.name, g f.type, f.embedded, f.tag⟩

/-- A type that is known without a look into a declaration. -/
inductive Ty.Plain : Ty → Prop
  | primitive (p : Primitive) : Plain (.primitive p)
  | interface (text : String) : Plain (.interface text)
  | func (text : String) : Plain (.func text)
  | param (name : String) : Plain (.param name)
  | unseen (n : TypeName) : Plain (.unseen n)
  | error : Plain Ty.error

theorem predeclaredType_plain {name : String} {t : Ty} (h : predeclaredType name = some t) : t.Plain := by
  unfold predeclaredType at h
  split at h
  · cases h
    exact .primitive _
  · split at h
    · cases h
      exact .error
    · split at h
      · cases h
        exact .interface name
      · cases h

/-- Types that belong together, kept by all forms of types that need no look into a declaration. -/
structure FormsTogether (T : (ι → Ty) → Prop) : Prop where
  plain {t : Ty} (h : t.Plain) : T fun _ => t
  pointer {t : ι → Ty} (h : T t) : T fun i => .pointer (t i)
  slice {t : ι → Ty} (h : T t) : T fun i => .slice (t i)
  array (l : Length) {t : ι → Ty} (h : T t) : T fun i => .array l (t i)
  map {k v : ι → Ty} (hk : T k) (hv : T v) : T fun i => .map (k i) (v i)
  chan (d : Direction) {t : ι → Ty} (h : T t) : T fun i => .chan d (t i)
  spelled (n : TypeName) {args : List (ι → Ty)} (hargs : ∀ a ∈ args, T a) :
    T fun i => .named n (args.map (· i)) (.unseen n)
  struct {fields : List (Field (ι → Ty))} (h : ∀ f ∈ fields, T f.type) :
    T fun i => .struct (fields.map (Field.map (· i)))

/-- Types that belong together, kept by all forms of types. -/
structure TypesTogether (T : (ι → Ty) → Prop) : Prop extends FormsTogether T where
  same (t : Ty) : T fun _ => t
  named (n : TypeName) {args : List (ι → Ty)} {t : ι → Ty} (hargs : ∀ a ∈ args, T a) (h : T t) :
    T fun i => .named n (args.map (· i)) (t i)
  plain _ := same _
  spelled n _ hargs := named n hargs (same _)

theorem typesTogether_true : TypesTogether fun _ : ι → Ty => True where
  same _ := trivial
  pointer _ := trivial
  slice _ := trivial
  array _ _ _ := trivial
  map _ _ := trivial
  chan _ _ _ := trivial
  named _ _ _ _ _ := trivial
  struct _ := trivial

/-- Answers that are one and the same. -/
def Same (a : ι → α) : Prop := ∃ b, a = fun _ => b

theorem Same.of_forall {l : List (ι → α)} (h : ∀ a ∈ l, Same a) : Same fun i => l.map (· i) := by
  induction l with
  | nil => exact ⟨[], rfl⟩
  | cons a rest ih =>
    obtain ⟨b, rfl⟩ := h a List.mem_cons_self
    obtain ⟨bs, hbs⟩ := ih fun c hc => h c (List.mem_cons_of_mem _ hc)
    exact ⟨b :: bs, funext fun i => congrArg (b :: ·) (congrFun hbs i)⟩

theorem typesTogether_same : TypesTogether (Same : (ι → Ty) → Prop) where
  same t := ⟨t, rfl⟩
  pointer := by rintro _ ⟨t, rfl⟩; exact ⟨_, rfl⟩
  slice := by rintro _ ⟨t, rfl⟩; exact ⟨_, rfl⟩
  array l := by rintro _ ⟨t, rfl⟩; exact ⟨_, rfl⟩
  map := by rintro _ _ ⟨k, rfl⟩ ⟨v, rfl⟩; exact ⟨_, rfl⟩
  chan d := by rintro _ ⟨t, rfl⟩; exact ⟨_, rfl⟩
  named n := by
    rintro args _ hargs ⟨t, rfl⟩
    obtain ⟨l, hl⟩ := Same.of_forall hargs
    exact ⟨.named n l t, funext fun i => congrArg (Ty.named n · t) (congrFun hl i)⟩
  struct := by
    intro fields h
    have hfields : ∀ f ∈ fields.map fun (f : Field (ι → Ty)) i => f.map (· i), Same f := by
      intro f hf
      obtain ⟨g, hg, rfl⟩ := List.mem_map.mp hf
      obtain ⟨t, ht⟩ := h g hg
      exact ⟨⟨g.name, t, g.embedded, g.tag⟩, by simp only [Field.map, ht]⟩
    obtain ⟨l, hl⟩ := Same.of_forall hfields
    refine ⟨.struct l, funext fun i => congrArg Ty.struct ?_⟩
    rw [← congrFun hl i, List.map_map]
    rfl

/-! ## Names -/

/-- What a name stands for in the settings: nothing, types that belong together, or declarations that do. -/
inductive FoundTogether (T : (ι → Ty) → Prop) (S : (ι → Site) → (ι → Session) → Prop) :
    (ι → Option Found) → (ι → Session) → Prop
  | none (s : ι → Session) : FoundTogether T S (fun _ => none) s
  | type {t : ι → Ty} (s : ι → Session) (h : T t) : FoundTogether T S (fun i => some (.type (t i))) s
  | declaration {site : ι → Site} {s : ι → Session} (h : S site s) :
    FoundTogether T S (fun i => some (.declaration (site i))) s

/-- The declarations of a name in imported packages: none, or declarations that belong together. -/
inductive SitesTogether (S : (ι → Site) → (ι → Session) → Prop) : (ι → Option Site) → (ι → Session) → Prop
  | none (s : ι → Session) : SitesTogether S (fun _ => none) s
  | some {site : ι → Site} {s : ι → Session} (h : S site s) : SitesTogether S (fun i => some (site i)) s

theorem resolveArg_name (tree : FileTree) (inner : Inner) (env : Env) (name : String) :
    resolveArg tree inner env (.name none name []) = env.lookup tree name >>= fun found =>
      match found with
      | none => give (.param name)
      | some _ => inner env (.name none name []) .value := rfl

theorem resolveArg_of_ne {tree : FileTree} {inner : Inner} {env : Env} {arg : TypeExpr}
    (h : ∀ name, arg ≠ .name none name []) : resolveArg tree inner env arg = inner env arg .value := by
  unfold resolveArg
  split
  · exact absurd rfl (h _)
  · rfl

/-! ## Written types -/

/-- Lines of struct types that belong together: with the same names and tags, and types that belong together. -/
structure LinesTogether (P : (ι → TypeExpr) → Prop) (d : ι → FieldDecl TypeExpr) : Prop where
  same : Same fun i => ((d i).names, (d i).tag, (d i).embeddedName)
  type : P fun i => (d i).type

/-- Written types that belong together: of the same form, with qualifiers and texts that belong together, and with
types in them that do. -/
inductive FormTogether (Q X : (ι → String) → Prop) (P : (ι → TypeExpr) → Prop) : (ι → TypeExpr) → Prop
  | plain (name : String) {args : List (ι → TypeExpr)} (h : ∀ a ∈ args, P a) :
    FormTogether Q X P fun i => .name none name (args.map (· i))
  | qualified {q : ι → String} (hq : Q q) (name : String) {args : List (ι → TypeExpr)} (h : ∀ a ∈ args, P a) :
    FormTogether Q X P fun i => .name (some (q i)) name (args.map (· i))
  | pointer {t : ι → TypeExpr} (h : P t) : FormTogether Q X P fun i => .pointer (t i)
  | slice {t : ι → TypeExpr} (h : P t) : FormTogether Q X P fun i => .slice (t i)
  | array (l : WrittenLength) {t : ι → TypeExpr} (h : P t) : FormTogether Q X P fun i => .array l (t i)
  | map {k v : ι → TypeExpr} (hk : P k) (hv : P v) : FormTogether Q X P fun i => .map (k i) (v i)
  | chan (d : Direction) {t : ι → TypeExpr} (h : P t) : FormTogether Q X P fun i => .chan d (t i)
  | func {text : ι → String} (h : X text) : FormTogether Q X P fun i => .func (text i)
  | interface {text : ι → String} (h : X text) : FormTogether Q X P fun i => .interface (text i)
  | struct {decls : List (ι → FieldDecl TypeExpr)} (h : ∀ d ∈ decls, LinesTogether P d) :
    FormTogether Q X P fun i => .struct (decls.map (· i))

/-- Arguments of which all are one name without arguments, or none is. -/
def ArgTogether (arg : ι → TypeExpr) : Prop :=
  (∃ name, arg = fun _ => .name none name []) ∨ ∀ i name, arg i ≠ .name none name []

theorem ArgTogether.same (type : TypeExpr) : ArgTogether fun _ : ι => type := by
  by_cases h : ∃ name, type = .name none name []
  · obtain ⟨name, rfl⟩ := h
    exact .inl ⟨name, rfl⟩
  · exact .inr fun _ name hname => h ⟨name, hname⟩

theorem FormTogether.imp {Q X : (ι → String) → Prop} {P P' : (ι → TypeExpr) → Prop} (hP : ∀ t, P t → P' t)
    {type : ι → TypeExpr} (h : FormTogether Q X P type) : FormTogether Q X P' type := by
  cases h with
  | plain name h => exact .plain name fun a ha => hP a (h a ha)
  | qualified hq name h => exact .qualified hq name fun a ha => hP a (h a ha)
  | pointer h => exact .pointer (hP _ h)
  | slice h => exact .slice (hP _ h)
  | array l h => exact .array l (hP _ h)
  | map hk hv => exact .map (hP _ hk) (hP _ hv)
  | chan d h => exact .chan d (hP _ h)
  | func h => exact .func h
  | interface h => exact .interface h
  | struct h => exact .struct fun d hd => ⟨(h d hd).same, hP _ (h d hd).type⟩

/-- One written type for all settings. -/
theorem FormTogether.same {X : (ι → String) → Prop} (hX : ∀ text, X fun _ => text) {P : (ι → TypeExpr) → Prop}
    {type : TypeExpr} (h : ∀ t ∈ type.parts, P fun _ => t) : FormTogether Same X P fun _ => type := by
  have hmap {α : Type} (l : List α) (i : ι) : (l.map fun a (_ : ι) => a).map (· i) = l := by
    rw [List.map_map]
    exact List.map_id l
  have hargs (args : List TypeExpr) (hargs : ∀ t ∈ args, P fun _ => t) : ∀ a ∈ args.map fun a (_ : ι) => a, P a := by
    simpa using hargs
  cases type with
  | name qualifier name args =>
    have htypes := hargs args h
    cases qualifier with
    | none => simpa only [hmap] using FormTogether.plain (Q := Same) (X := X) name htypes
    | some q => simpa only [hmap] using FormTogether.qualified (X := X) ⟨q, rfl⟩ name htypes
  | pointer t => exact .pointer (h t (by simp [TypeExpr.parts]))
  | slice t => exact .slice (h t (by simp [TypeExpr.parts]))
  | array l t => exact .array l (h t (by simp [TypeExpr.parts]))
  | map k v => exact .map (h k (by simp [TypeExpr.parts])) (h v (by simp [TypeExpr.parts]))
  | chan d t => exact .chan d (h t (by simp [TypeExpr.parts]))
  | func text => exact .func (hX text)
  | interface text => exact .interface (hX text)
  | struct decls =>
    have hlines : ∀ d ∈ decls.map fun d (_ : ι) => d, LinesTogether P d := by
      intro d hd
      obtain ⟨line, hline, rfl⟩ := List.mem_map.mp hd
      exact ⟨⟨_, rfl⟩, h line.type (List.mem_map_of_mem hline)⟩
    simpa only [hmap] using FormTogether.struct (Q := Same) (X := X) hlines

/-- The fields of lines that belong together, with types that do. -/
theorem fieldsOf_together {P : (ι → TypeExpr) → Prop} {d : ι → FieldDecl TypeExpr} (h : LinesTogether P d)
    (t : ι → Ty) : ∃ l : List (Field (ι → Ty)), (∀ f ∈ l, f.type = t) ∧
      ∀ i, fieldsOf (d i) (t i) = l.map (Field.map (· i)) := by
  obtain ⟨⟨names, tag, embedded⟩, hsame⟩ := h.same
  have hline (i : ι) : (d i).names = names ∧ (d i).tag = tag ∧ (d i).embeddedName = embedded := by
    simpa using congrFun hsame i
  refine ⟨if names.isEmpty then (embedded.map fun name => ⟨name, t, true, tag⟩).toList
    else names.map fun name => ⟨name, t, false, tag⟩, fun f hf => ?_, fun i => ?_⟩
  · split at hf
    · obtain ⟨_, -, rfl⟩ := Option.map_eq_some_iff.mp (Option.mem_toList.mp hf)
      rfl
    · obtain ⟨_, -, rfl⟩ := List.mem_map.mp hf
      rfl
  · obtain ⟨hnames, htag, hembedded⟩ := hline i
    rw [fieldsOf, FieldDecl.isEmbedded, hnames, htag, hembedded]
    split
    · cases embedded <;> rfl
    · rw [List.map_map]
      rfl

/-- The fields of a struct type whose lines belong together. -/
theorem structFields_together {P : (ι → TypeExpr) → Prop} {T : (ι → Ty) → Prop} {decls : List (ι → FieldDecl TypeExpr)}
    {types : List (ι → Ty)} (hdecls : ∀ d ∈ decls, LinesTogether P d) (htypes : ∀ t ∈ types, T t) :
    ∃ fields : List (Field (ι → Ty)), (∀ f ∈ fields, T f.type) ∧
      ∀ i, (((decls.map (· i)).zip (types.map (· i))).flatMap fun (d, t) => fieldsOf d t) =
        fields.map (Field.map (· i)) := by
  induction decls generalizing types with
  | nil => exact ⟨[], by simp, fun i => rfl⟩
  | cons d rest ih =>
    cases types with
    | nil => exact ⟨[], by simp, fun i => rfl⟩
    | cons t types =>
      obtain ⟨line, htype, hline⟩ := fieldsOf_together (hdecls d List.mem_cons_self) t
      obtain ⟨fields, hfields, hrest⟩ := ih (fun d hd => hdecls d (List.mem_cons_of_mem _ hd))
        fun t ht => htypes t (List.mem_cons_of_mem _ ht)
      refine ⟨line ++ fields, fun f hf => ?_, fun i => ?_⟩
      · rcases List.mem_append.mp hf with hf | hf
        · rw [htype f hf]
          exact htypes t List.mem_cons_self
        · exact hfields f hf
      · rw [List.map_append, ← hline, ← hrest]
        rfl

/-! ## Settings -/

/-- Settings in which types are resolved in step, if they are written in ways that belong together: look-ups answer
alike, and so does what becomes of declarations that belong together, once the types of their parameters are known. A
type that is not found may have names that differ. -/
structure InStepAs (F : Frame ι) (T : (ι → Ty) → Prop) (S : (ι → Site) → (ι → Session) → Prop)
    (Q X : (ι → String) → Prop) (I : (ι → String) → Option (String × String) → Prop) (N : (ι → TypeName) → Prop)
    (tree : ι → FileTree) (inner : ι → Inner) (env : ι → Env) : Prop where
  grows (i : ι) (env : Env) (type : TypeExpr) (mode : Mode) : Grows (inner i env type mode)
  types : FormsTogether T
  func {text : ι → String} (h : X text) : T fun i => .func (text i)
  interface {text : ι → String} (h : X text) : T fun i => .interface (text i)
  unseen {n : ι → TypeName} (h : N n) : T fun i => .unseen (n i)
  spelled {n : ι → TypeName} (h : N n) {args : List (ι → Ty)} (hargs : ∀ a ∈ args, T a) :
    T fun i => .named (n i) (args.map (· i)) (.unseen (n i))
  same (n : TypeName) : N fun _ => n
  name : Same fun i => ((env i).path, (env i).name)
  length (l : WrittenLength) : Same fun i => (env i).arrayLength l
  lookup (name : String) : Lockstep F (fun i => (env i).lookup (tree i) name) (FoundTogether T S)
  importNamed {q : ι → String} (h : Q q) : Lockstep F (fun i => (env i).importNamed (tree i) (q i))
    fun a _ => ∃ b, I q b ∧ a = fun _ => b
  qualifier {q : ι → String} (h : I q none) : Same q
  imported {q : ι → String} (name : String) {imported : Option (String × String)} (h : I q imported) :
    Lockstep F (fun i => importedSite (tree i) name imported) fun site s => SitesTogether S site s ∧
      ((∀ i, site i = none) → N fun i => ⟨(imported.map (·.1)).getD (q i), q i, name⟩)
  site {site : ι → Site} {s : ι → Session} (h : S site s) : Same fun i => ((site i).path, (site i).name)
  enter {site : ι → Site} {s : ι → Session} {args : List (ι → Ty)} (hs : F.together s) (h : S site s)
    (hargs : ∀ t ∈ args, T t) : Lockstep (F.after s)
      (fun i => enterDeclared (inner i) (env i) (site i) (args.map (· i))) fun t _ => T t

namespace InStepAs

variable {F : Frame ι} {T : (ι → Ty) → Prop} {S : (ι → Site) → (ι → Session) → Prop} {Q X : (ι → String) → Prop}
  {I : (ι → String) → Option (String × String) → Prop} {N : (ι → TypeName) → Prop} {tree : ι → FileTree}
  {inner : ι → Inner} {env : ι → Env}

theorem after (h : InStepAs F T S Q X I N tree inner env) (s₁ : ι → Session) :
    InStepAs (F.after s₁) T S Q X I N tree inner env where
  grows := h.grows
  types := h.types
  func := h.func
  interface := h.interface
  unseen := h.unseen
  spelled := h.spelled
  same := h.same
  name := h.name
  length := h.length
  lookup name := (h.lookup name).after s₁
  importNamed hq := (h.importNamed hq).after s₁
  qualifier := h.qualifier
  imported name _ hi := (h.imported name hi).after s₁
  site := h.site
  enter hs hS hargs := by
    rw [Frame.after_comm]
    exact (h.enter hs.1 hS hargs).after s₁

/-- A type inside another one that is resolved to types that belong together, and the same as an argument. -/
structure Resolves (F : Frame ι) (T : (ι → Ty) → Prop) (inner : ι → Inner) (env : ι → Env) (type : ι → TypeExpr) :
    Prop where
  argument : ArgTogether type
  lockstep {mode : Mode} (hmode : mode ≠ .root) : Lockstep F (fun i => inner i (env i) (type i) mode) fun t _ => T t

theorem Resolves.after {type : ι → TypeExpr} (h : Resolves F T inner env type) (s₁ : ι → Session) :
    Resolves (F.after s₁) T inner env type :=
  ⟨h.argument, fun hmode => (h.lockstep hmode).after s₁⟩

theorem Resolves.spelled {type : ι → TypeExpr} (h : Resolves F T inner env type) :
    Lockstep F (fun i => inner i (env i) (type i) .spelled) fun t _ => T t := h.lockstep nofun

theorem Resolves.value {type : ι → TypeExpr} (h : Resolves F T inner env type) :
    Lockstep F (fun i => inner i (env i) (type i) .value) fun t _ => T t := h.lockstep nofun

theorem Resolves.within {type : ι → TypeExpr} (h : Resolves F T inner env type) (mode : Mode) :
    Lockstep F (fun i => inner i (env i) (type i) mode.inner) fun t _ => T t :=
  h.lockstep (by cases mode <;> nofun)

variable (h : InStepAs F T S Q X I N tree inner env)
include h

theorem spell {n : ι → TypeName} (hn : N n) {args : List (ι → TypeExpr)}
    (hargs : ∀ a ∈ args, Resolves F T inner env a) :
    Lockstep F (fun i => LiteralFill.spell (inner i) (env i) (n i) (args.map (· i))) fun t _ => T t := by
  cases args with
  | nil => exact .give fun _ _ => h.unseen hn
  | cons a rest =>
    refine (Lockstep.forEach_map (fun i _ => h.grows i ..) fun a ha => (hargs a ha).spelled).bind
      (fun _ _ => .give _) ?_
    rintro _ s₁ - ⟨l, hl, rfl⟩
    exact .give fun _ _ => h.spelled hn hl

theorem arg {arg : ι → TypeExpr} (harg : Resolves F T inner env arg) :
    Lockstep F (fun i => resolveArg (tree i) (inner i) (env i) (arg i)) fun t _ => T t := by
  have hvalue := harg.value
  rcases harg.argument with ⟨name, rfl⟩ | hother
  · simp only [resolveArg_name]
    refine (h.lookup name).bind (fun i found => ?_) fun found s₁ _ hfound => ?_
    · cases found with
      | none => exact .give _
      | some _ => exact h.grows i ..
    · cases hfound with
      | none => exact .give fun _ _ => h.types.plain (.param name)
      | type _ _ => exact hvalue.after s₁
      | declaration _ => exact hvalue.after s₁
  · simp only [resolveArg_of_ne (hother _)]
    exact hvalue

theorem declared {site : ι → Site} {s₁ : ι → Session} (hs : F.together s₁) (hS : S site s₁)
    {args : List (ι → TypeExpr)} (hargs : ∀ a ∈ args, Resolves F T inner env a) :
    Lockstep (F.after s₁) (fun i => resolveDeclared (tree i) (inner i) (env i) (site i) (args.map (· i)))
      fun t _ => T t := by
  simp only [resolveDeclared_eq]
  refine (Lockstep.forEach_map (fun i _ => grows_resolveArg (h.grows i) ..)
    fun a ha => (h.arg (hargs a ha)).after s₁).bind (fun i _ => grows_enterDeclared (h.grows i) ..) ?_
  rintro _ s₂ - ⟨l, hl, rfl⟩
  exact (h.enter hs hS hl).after s₂

theorem found (name : String) (mode : Mode) {args : List (ι → TypeExpr)}
    (hargs : ∀ a ∈ args, Resolves F T inner env a) {found : ι → Option Found} {s₁ : ι → Session}
    (hs : F.together s₁) (hfound : FoundTogether T S found s₁) :
    Lockstep (F.after s₁) (fun i => resolveFound (tree i) (inner i) (env i) name (args.map (· i)) mode (found i))
      fun t _ => T t := by
  have hspell (n : TypeName) : Lockstep (F.after s₁)
      (fun i => LiteralFill.spell (inner i) (env i) n (args.map (· i))) fun t _ => T t :=
    (h.spell (h.same n) hargs).after s₁
  cases hfound with
  | none =>
    obtain ⟨⟨path, package⟩, hname⟩ := h.name
    by_cases hmode : mode = .root
    · simp only [resolveFound, hmode, ↓reduceIte]
      exact .stop _
    · simp only [resolveFound, hmode, ↓reduceIte, (Prod.mk.inj (congrFun hname _)).1,
        (Prod.mk.inj (congrFun hname _)).2]
      exact hspell _
  | type _ ht => exact .give fun _ _ => ht
  | @declaration site _ hS =>
    obtain ⟨⟨path, package⟩, hname⟩ := h.site hS
    by_cases hmode : mode = .spelled
    · simp only [resolveFound, hmode, ↓reduceIte, (Prod.mk.inj (congrFun hname _)).1,
        (Prod.mk.inj (congrFun hname _)).2]
      exact hspell _
    · simp only [resolveFound, hmode, ↓reduceIte]
      exact h.declared hs hS hargs

/-- A type of another package. The qualifiers are the same before a literal, where one may stand in an error. -/
theorem qualified {q : ι → String} (hq : Q q) (name : String) {mode : Mode} (hmode : mode = .root → Same q)
    {args : List (ι → TypeExpr)} (hargs : ∀ a ∈ args, Resolves F T inner env a) :
    Lockstep F (fun i => resolveQualified (tree i) (inner i) (env i) (q i) name (args.map (· i)) mode)
      fun t _ => T t := by
  simp only [resolveQualified_eq]
  refine (h.importNamed hq).bind (fun i _ => grows_resolveImported (h.grows i) ..) ?_
  rintro _ s₁ hs ⟨imported, hi, rfl⟩
  by_cases hunsafe : (imported.map (·.1) = some "unsafe" && name = "Pointer") = true
  · simp only [resolveImported, hunsafe, ↓reduceIte]
    exact .give fun _ _ => h.types.plain (.primitive .pointer)
  · by_cases hspelled : mode = .spelled
    · simp only [resolveImported, hunsafe, hspelled, ↓reduceIte]
      refine (h.spell ?_ hargs).after s₁
      cases imported with
      | none =>
        obtain ⟨q, rfl⟩ := h.qualifier hi
        exact h.same _
      | some i => exact h.same ⟨i.1, i.2, name⟩
    · simp only [resolveImported, hunsafe, hspelled, ↓reduceIte]
      refine ((h.imported name hi).after s₁).bind (fun i _ => grows_resolveSite (h.grows i) ..)
        fun site s₂ hs₂ ⟨hsite, hnone⟩ => ?_
      cases hsite with
      | none =>
        by_cases hroot : mode = .root
        · obtain ⟨q, rfl⟩ := hmode hroot
          simp only [resolveSite, hroot, ↓reduceIte]
          exact .stop _
        · simp only [resolveSite, hroot, ↓reduceIte]
          exact ((h.spell (hnone fun _ => rfl) hargs).after s₁).after s₂
      | some hS => exact (h.after s₁).declared hs₂ hS fun a ha => (hargs a ha).after s₁

/-- A type is resolved in step if the types that stand directly in it are. -/
theorem form {type : ι → TypeExpr} {mode : Mode} (hmode : mode = .root → ∀ q, Q q → Same q)
    (hform : FormTogether Q X (Resolves F T inner env) type) :
    Lockstep F (fun i => resolveForm (tree i) (inner i) (env i) (type i) mode) fun t _ => T t := by
  cases hform with
  | plain name hargs =>
    exact (h.lookup name).bind (fun i _ => grows_resolveFound (h.grows i) ..)
      fun found s₁ hs hfound => h.found name mode hargs hs hfound
  | qualified hq name hargs => exact h.qualified hq name (fun hroot => hmode hroot _ hq) hargs
  | pointer ht =>
    exact ht.spelled.bind (fun _ _ => .give _) fun _ _ _ ht => .give fun _ _ => h.types.pointer ht
  | slice ht =>
    exact ht.spelled.bind (fun _ _ => .give _) fun _ _ _ ht => .give fun _ _ => h.types.slice ht
  | array l ht =>
    obtain ⟨n, hlength⟩ := h.length l
    refine (ht.within mode).bind (fun _ _ => .give _) fun _ _ _ ht => ?_
    simp only [congrFun hlength _]
    exact .give fun _ _ => h.types.array n ht
  | map hk hv =>
    refine hk.spelled.bind (fun i _ => .bind (h.grows i ..) fun _ => .give _) fun _ s₁ _ hk => ?_
    exact (hv.spelled.after s₁).bind (fun _ _ => .give _) fun _ _ _ hv => .give fun _ _ => h.types.map hk hv
  | chan d ht =>
    exact ht.spelled.bind (fun _ _ => .give _) fun _ _ _ ht => .give fun _ _ => h.types.chan d ht
  | func htext => exact .give fun _ _ => h.func htext
  | interface htext => exact .give fun _ _ => h.interface htext
  | @struct decls hlines =>
    refine (Lockstep.forEach_map (fun i _ => h.grows i ..) fun d hd => (hlines d hd).type.within mode).bind
      (fun _ _ => .give _) ?_
    rintro _ s₁ - ⟨l, hl, rfl⟩
    obtain ⟨fields, hfields, hsame⟩ := structFields_together hlines hl
    simp only [hsame]
    exact .give fun _ _ => h.types.struct hfields

end InStepAs

/-- Settings in which types are resolved in step: look-ups answer alike, and so does what becomes of
declarations that belong together, once the types of their parameters are known. -/
structure InStep (F : Frame ι) (T : (ι → Ty) → Prop) (S : (ι → Site) → (ι → Session) → Prop)
    (I : Option (String × String) → Prop) (tree : ι → FileTree) (inner : ι → Inner) (env : ι → Env) : Prop where
  grows (i : ι) (env : Env) (type : TypeExpr) (mode : Mode) : Grows (inner i env type mode)
  types : FormsTogether T
  name : Same fun i => ((env i).path, (env i).name)
  length (l : WrittenLength) : Same fun i => (env i).arrayLength l
  lookup (name : String) : Lockstep F (fun i => (env i).lookup (tree i) name) (FoundTogether T S)
  importNamed (q : String) : Lockstep F (fun i => (env i).importNamed (tree i) q) fun a _ => ∃ b, I b ∧ a = fun _ => b
  imported (name : String) {imported : Option (String × String)} (h : I imported) :
    Lockstep F (fun i => importedSite (tree i) name imported) (SitesTogether S)
  site {site : ι → Site} {s : ι → Session} (h : S site s) : Same fun i => ((site i).path, (site i).name)
  enter {site : ι → Site} {s : ι → Session} {args : List (ι → Ty)} (hs : F.together s) (h : S site s)
    (hargs : ∀ t ∈ args, T t) : Lockstep (F.after s)
      (fun i => enterDeclared (inner i) (env i) (site i) (args.map (· i))) fun t _ => T t

namespace InStep

variable {F : Frame ι} {T : (ι → Ty) → Prop} {S : (ι → Site) → (ι → Session) → Prop}
  {I : Option (String × String) → Prop} {tree : ι → FileTree} {inner : ι → Inner} {env : ι → Env}
  (h : InStep F T S I tree inner env)
include h

/-- One way to write types for all settings. -/
theorem inStepAs : InStepAs F T S Same Same (fun q imported => Same q ∧ I imported) Same tree inner env where
  grows := h.grows
  types := h.types
  func := by
    rintro _ ⟨text, rfl⟩
    exact h.types.plain (.func text)
  interface := by
    rintro _ ⟨text, rfl⟩
    exact h.types.plain (.interface text)
  unseen := by
    rintro _ ⟨n, rfl⟩
    exact h.types.plain (.unseen n)
  spelled := by
    rintro _ ⟨n, rfl⟩ args hargs
    exact h.types.spelled n hargs
  same n := ⟨n, rfl⟩
  name := h.name
  length := h.length
  lookup := h.lookup
  importNamed := by
    rintro _ ⟨q, rfl⟩
    exact (h.importNamed q).weaken fun _ _ _ ⟨b, hb, ha⟩ => ⟨b, ⟨⟨q, rfl⟩, hb⟩, ha⟩
  qualifier hi := hi.1
  imported := by
    rintro _ name imported ⟨⟨q, rfl⟩, hi⟩
    exact (h.imported name hi).weaken fun _ _ _ hsite => ⟨hsite, fun _ => ⟨_, rfl⟩⟩
  site := h.site
  enter := h.enter

/-- A type is resolved in step if the types that stand directly in it are. -/
theorem form (type : TypeExpr) (mode : Mode)
    (hparts : ∀ t ∈ type.parts, ∀ mode, Lockstep F (fun i => inner i (env i) t mode) fun t _ => T t) :
    Lockstep F (fun i => resolveForm (tree i) (inner i) (env i) type mode) fun t _ => T t :=
  h.inStepAs.form (fun _ _ hq => hq) (.same (fun text => ⟨text, rfl⟩) fun t ht => ⟨.same t, fun _ => hparts t ht _⟩)

end InStep

end LiteralFill
