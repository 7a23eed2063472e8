import LiteralFill.Proofs.Fill.Endless
import LiteralFill.Proofs.Filled.Entries
import LiteralFill.Proofs.Reading.Declared

/-!
Types that are resolved can be written where the literal stands. Each declaration that is met stands in a file whose
names are names, in the file that is edited or in one of a package that is remembered; so a name that is found, or
only spelled, is one, and it can be qualified.
-/

namespace LiteralFill

open Resolution (give stop forEach Grows)

/-! ## Answers -/

namespace Resolution

variable {α β : Type} {memory : PackageDb}

/-- Whatever the step answers satisfies `P`, unless it needs packages beyond a memory. -/
structure Answers (memory : PackageDb) (r : Resolution α) (P : α → Prop) : Prop where
  step {s s' : Session} {a : α} (h : r s = (.ok a, s')) (hw : s'.packages.GrowsTo memory) : P a

namespace Answers

variable {P : α → Prop} {Q : β → Prop} {r : Resolution α} {f : α → Resolution β}

theorem give {a : α} (h : P a) : Answers memory (Resolution.give a) P := by
  refine ⟨fun ha _ => ?_⟩
  cases ha
  exact h

theorem stop {e : ResolveError} : Answers memory (Resolution.stop e) P := ⟨fun h => by cases h⟩

theorem bind (hr : Answers memory r P) (hgrows : ∀ a, (f a).Grows) (hf : ∀ a, P a → Answers memory (f a) Q) :
    Answers memory (r >>= f) Q := by
  refine ⟨fun {s s' b} h hw => ?_⟩
  obtain ⟨a, s₁, ha, hb⟩ := bind_ok h
  have hgrown := ((hgrows a).step s₁).packages
  rw [hb] at hgrown
  exact (hf a (hr.step ha (hgrown.trans hw))).step hb hw

/-- One more step that does nothing but answer. -/
theorem map {g : α → β} (hr : Answers memory r P) (hg : ∀ a, P a → Q (g a)) :
    Answers memory (r >>= fun a => LiteralFill.Resolution.give (g a)) Q :=
  hr.bind (fun _ => .give _) fun a ha => .give (hg a ha)

theorem forEach {R : α → Prop} (hgrows : ∀ a, (f a).Grows) (as : List α) (has : ∀ a ∈ as, R a)
    (hf : ∀ a, R a → Answers memory (f a) Q) : Answers memory (Resolution.forEach f as) fun bs => ∀ b ∈ bs, Q b := by
  induction as with
  | nil => exact .give (by simp)
  | cons a rest ih =>
    refine .bind (hf a (has a List.mem_cons_self)) (fun _ => .bind (.forEach hgrows rest) fun _ => .give _) fun b hb => ?_
    refine .map (ih fun c hc => has c (List.mem_cons_of_mem a hc)) fun bs hbs => ?_
    exact List.forall_mem_cons.mpr ⟨hb, hbs⟩

end Answers

end Resolution

open Resolution (Answers)

/-! ## Names -/

/-- The types declared at a place can be named. -/
def Qualifier.Names (q : Qualifier) (path package : String) : Prop :=
  ∀ name : String, IsIdentifier name.toList → IsTypeText (showName q ⟨path, package, name⟩).toList

/-- Types of packages with names can be named, and predeclared types. -/
structure Qualifier.NamesAll (q : Qualifier) : Prop where
  imported {path package : String} (h : IsIdentifier package.toList) : q.Names path package
  predeclared : q.Names "" ""

/-- A package has files whose names are names. -/
def Package.IsWritten (p : Package) : Prop := ∀ f ∈ p.files, f.source.IsWritten

/-- The names visible at a place can be written, and so can the types that type parameters stand for. -/
structure Env.IsWritten (q : Qualifier) (env : Env) : Prop where
  file : env.file.IsWritten
  package : ∀ p ∈ env.package, p.IsWritten
  label : q.Names env.path env.name
  arguments : ∀ e ∈ env.arguments, e.2.IsWritten q

/-- A declaration whose type can be written and named. -/
structure Site.IsWritten (q : Qualifier) (site : Site) : Prop where
  file : site.file.IsWritten
  package : ∀ p ∈ site.package, p.IsWritten
  label : q.Names site.path site.name
  decl : site.decl.IsWritten

/-- What a name stands for can be written. -/
def Found.IsWritten (q : Qualifier) : Found → Prop
  | .type t => t.IsWritten q
  | .declaration site => site.IsWritten q

section

variable {q : Qualifier}

theorem isTypeText_error : IsTypeText "interface\x7b Error() string \x7d".toList := by
  have hword : IsIdentifier "Error".toList := ⟨⟨_, _, rfl, rfl, List.all_eq_true.mp rfl⟩, rfl⟩
  have hresult : IsIdentifier "string".toList := ⟨⟨_, _, rfl, rfl, List.all_eq_true.mp rfl⟩, rfl⟩
  have hbrace : IsPart ['\x7b'] [.opener .brace] := .single rfl rfl
  have hclose : IsPart ['\x7d'] [.closer .brace] := .single rfl rfl
  have hright : IsPart [')'] [.closer .paren] := .single rfl rfl
  have hparens : IsPart ['(', ')'] [.opener .paren, .closer .paren] := .cons rfl rfl rfl hright
  have hopen : IsPart "interface\x7b".toList [.keyword .interfaceWord, .opener .brace] :=
    (Keyword.isPart .interfaceWord).append hbrace (by rintro d ⟨⟩; decide)
  have hmethod : IsPart "Error()".toList [.ident, .opener .paren, .closer .paren] :=
    hword.isPart.append hparens (by rintro d ⟨⟩; decide)
  refine ⟨⟨_, hopen.space (hmethod.space (hresult.isPart.space hclose)), ?_⟩, by rintro c ⟨⟩; exact nofun⟩
  have hinside : IsBalanced [.ident, .opener .paren, .closer .paren, .ident] :=
    .single rfl (.group .none (.single rfl .none))
  exact .single rfl (by simp) (.group hinside .none)

theorem isWritten_predeclared {name : String} {t : Ty} (h : predeclaredType name = some t)
    (hq : q.NamesAll) : t.IsWritten q := by
  unfold predeclaredType at h
  split at h
  · next p hp =>
    cases h
    refine .primitive ?_
    rintro rfl
    have hmem := List.mem_of_find?_eq_some hp
    exact absurd hmem (by decide)
  · split at h
    · cases h
      exact .named (hq.predeclared "error" ⟨⟨_, _, rfl, rfl, List.all_eq_true.mp rfl⟩, rfl⟩) (by simp)
        (.interface isTypeText_error)
    · split at h
      · next hname =>
        cases h
        simp only [Bool.or_eq_true, beq_iff_eq] at hname
        refine .interface (.of_identifier ?_)
        rcases hname with rfl | rfl <;> exact ⟨⟨_, _, rfl, rfl, List.all_eq_true.mp rfl⟩, rfl⟩
      · cases h

theorem siteIn_isWritten {p : Package} (hp : p.IsWritten) (hlabel : q.Names p.path p.name) {name : String}
    {skip : Option Path} {site : Site} (h : siteIn p name skip = some site) : site.IsWritten q := by
  obtain ⟨f, hf, d, hd, rfl⟩ := exists_of_siteIn h
  refine ⟨hp f hf, ?_, hlabel, (hp f hf).types d hd⟩
  rintro _ ⟨⟩
  exact hp

theorem Env.IsWritten.lookupNear {env : Env} (henv : env.IsWritten q) (hq : q.NamesAll) {name : String}
    {found : Found} (h : env.lookupNear name = some found) : found.IsWritten q := by
  cases found with
  | type t =>
    rcases env.lookupNear_type h with hargument | ⟨-, hpredeclared⟩
    · obtain ⟨before, after, harguments, -⟩ := List.lookup_eq_some_iff.mp hargument
      exact henv.arguments (name, t) (by simp [harguments])
    · exact isWritten_predeclared hpredeclared hq
  | declaration site =>
    rcases env.lookupNear_declaration h with ⟨d, hd, isLocal, hsite⟩ | ⟨p, hp, site', hsite, rfl⟩
    · cases hsite
      exact ⟨henv.file, nofun, henv.label, henv.file.types d hd⟩
    · obtain ⟨f, hf, d, hd, rfl⟩ := exists_of_siteIn hsite
      have hfiles := henv.package p hp
      refine ⟨hfiles f hf, ?_, henv.label, (hfiles f hf).types d hd⟩
      rintro _ ⟨⟩
      exact hfiles

theorem Env.IsWritten.inside {env : Env} (henv : env.IsWritten q) {site : Site} (hsite : site.IsWritten q)
    {args : List Ty} (hargs : ∀ t ∈ args, t.IsWritten q) : (env.inside site args).IsWritten q := by
  refine ⟨hsite.file, fun p hp => ?_, hsite.label, fun e he => ?_⟩
  · change p ∈ site.package.orElse fun _ => env.package at hp
    cases hpackage : site.package with
    | none =>
      rw [hpackage] at hp
      exact henv.package p hp
    | some p' =>
      rw [hpackage] at hp
      exact hsite.package p (hpackage ▸ hp)
  · obtain ⟨⟨param, i⟩, hparam, rfl⟩ := List.mem_map.mp (List.mem_reverse.mp he)
    have hparam := List.mem_zipIdx hparam
    cases harg : args[i]? with
    | none => simpa [harg] using .param (hsite.decl.params param (by rw [hparam.2.2]; exact List.getElem_mem _))
    | some t => simpa [harg] using hargs t (List.mem_of_getElem? harg)

theorem isLengthText_ellipsis : IsLengthText "...".toList := by
  have hlexemes : lexemes "...".toList = [⟨.token .ellipsis, ['.', '.', '.']⟩] := rfl
  refine ⟨fun l hl => ?_, fun l hl => ?_, ?_⟩
  · rw [hlexemes, List.mem_singleton] at hl
    rw [hl]
    rfl
  · rw [hlexemes, List.mem_singleton] at hl
    rw [hl]
    exact .inl rfl
  · rw [kindsWithin, hlexemes]
    exact .single rfl .none

theorem Env.isWritten_arrayLength (env : Env) {l : WrittenLength}
    (hl : ∀ text, l = .expression text → IsLengthText text.toList) : (env.arrayLength l).IsWritten := by
  cases l with
  | number n => exact trivial
  | ellipsis => exact isLengthText_ellipsis
  | expression text =>
    unfold arrayLength
    dsimp only
    split
    · exact trivial
    · exact hl text rfl

/-- The fields of one line have names, types that can be written and tags that stand for themselves. -/
theorem fieldsOf_isWritten {d : FieldDecl TypeExpr} (hnames : ∀ name ∈ d.names, IsIdentifier name.toList)
    (hdecl : d.type.IsWritten) (htag : ∀ tag ∈ d.tag, IsInner tag.toList) {t : Ty} (ht : t.IsWritten q) :
    ∀ f ∈ fieldsOf d t, IsIdentifier f.name.toList ∧ f.type.IsWritten q ∧ ∀ tag ∈ f.tag, IsInner tag.toList := by
  intro f hf
  unfold fieldsOf at hf
  split at hf
  · obtain ⟨name, hname, rfl⟩ := Option.map_eq_some_iff.mp (Option.mem_toList.mp hf)
    refine ⟨?_, ht, htag⟩
    unfold FieldDecl.embeddedName at hname
    split at hname
    · next htype =>
      cases hname
      rw [htype] at hdecl
      cases hdecl with
      | name _ hname _ => exact hname
    · next htype =>
      cases hname
      rw [htype] at hdecl
      cases hdecl with
      | pointer hdecl =>
        cases hdecl with
        | name _ hname _ => exact hname
    · cases hname
  · obtain ⟨name, hname, rfl⟩ := List.mem_map.mp hf
    exact ⟨hnames name hname, ht, htag⟩

end

/-- The packages that are remembered under import paths have names, and files whose names are names. -/
structure PackageDb.IsWritten (memory : PackageDb) : Prop where
  byPath {path : String} {p : Package} (h : memory.byPath.lookup path = some (some p)) :
    p.IsWritten ∧ IsIdentifier p.name.toList

section

variable {tree : FileTree} {memory : PackageDb} (hmemory : memory.IsWritten) {q : Qualifier} (hq : q.NamesAll)

theorem Resolution.Answers.firstOf {α : Type} (f : ImportSpec → Package → Option α) (imports : List ImportSpec) :
    Answers memory (Resolution.firstOf tree f imports) fun found => ∀ a ∈ found, ∃ i ∈ imports, ∃ p,
      memory.byPath.lookup i.path = some (some p) ∧ f i p = some a := by
  refine ⟨fun h hw a ha => ?_⟩
  rw [Option.mem_def] at ha
  exact Resolution.firstOf_answer (ha ▸ h) hw

include hmemory

theorem Env.answers_importNamed {env : Env} (hfile : env.file.IsWritten) (qualifier : String) :
    Answers memory (env.importNamed tree qualifier) fun imported => ∀ i ∈ imported, IsIdentifier i.2.toList := by
  unfold importNamed
  split
  · next i hi =>
    refine .give ?_
    rintro _ ⟨⟩
    exact (hfile.imports i (List.mem_of_find?_eq_some hi)).2
  · refine ⟨fun h hw i hi => ?_⟩
    obtain ⟨j, -, p, hp, hname⟩ := (Answers.firstOf ..).step h hw i hi
    split at hname
    · cases hname
      exact (hmemory.byPath hp).2
    · cases hname

include hq

theorem Env.answers_lookup {env : Env} (henv : env.IsWritten q) (name : String) :
    Answers memory (env.lookup tree name) fun found => ∀ f ∈ found, f.IsWritten q := by
  rcases env.lookup_cases tree name with ⟨found, hnear, hlookup⟩ | hlookup
  · rw [hlookup]
    refine .give ?_
    rintro _ ⟨⟩
    exact henv.lookupNear hq hnear
  · rw [hlookup]
    refine Answers.map (Answers.firstOf ..) fun found hfound f hf => ?_
    obtain ⟨site, hsite, rfl⟩ := Option.map_eq_some_iff.mp hf
    obtain ⟨i, -, p, hp, hin⟩ := hfound site hsite
    have hpackage := hmemory.byPath hp
    exact siteIn_isWritten hpackage.1 (hq.imported hpackage.2) hin

theorem answers_importedSite (name : String) (imported : Option (String × String)) :
    Answers memory (importedSite tree name imported) fun site => ∀ found ∈ site, found.IsWritten q := by
  unfold importedSite
  split
  · refine ⟨fun h hw site hsite => ?_⟩
    obtain ⟨package, s₁, hload, hgive⟩ := Resolution.bind_ok h
    obtain ⟨hfound, rfl⟩ := Prod.mk.inj hgive
    rw [← Except.ok.inj hfound] at hsite
    obtain ⟨p, rfl, hin⟩ := Option.bind_eq_some_iff.mp hsite
    have hpackage := hmemory.byPath (Resolution.load_answer hload hw)
    exact siteIn_isWritten hpackage.1 (hq.imported hpackage.2) hin
  · exact .give nofun

/-! ## Forms of types -/

variable {inner : Inner} (hgrows : ∀ env type mode, (inner env type mode).Grows)
  (hinner : ∀ {env : Env} {type : TypeExpr} (mode : Mode), env.IsWritten q → type.IsWritten →
    Answers memory (inner env type mode) (·.IsWritten q))
  {env : Env} (henv : env.IsWritten q)
include hgrows hinner henv

omit hmemory hq in
theorem answers_spell {n : TypeName} (hn : IsTypeText (showName q n).toList) {args : List TypeExpr}
    (hargs : ∀ a ∈ args, a.IsWritten) : Answers memory (spell inner env n args) (·.IsWritten q) := by
  unfold spell
  split
  · exact .give (.unseen hn)
  · refine .map (.forEach (fun _ => hgrows ..) args hargs fun a ha => hinner .spelled henv ha) fun types htypes => ?_
    exact .named hn htypes (.unseen hn)

theorem answers_resolveArg {arg : TypeExpr} (harg : arg.IsWritten) :
    Answers memory (resolveArg tree inner env arg) (·.IsWritten q) := by
  by_cases hname : ∃ name, arg = .name none name []
  · obtain ⟨name, rfl⟩ := hname
    rw [resolveArg_name]
    refine .bind (Env.answers_lookup hmemory hq henv name) (fun found => ?_) fun found _ => ?_
    · cases found with
      | none => exact .give _
      | some _ => exact hgrows ..
    · cases found with
      | none =>
        cases harg with
        | name _ hname _ => exact .give (.param hname)
      | some _ => exact hinner .value henv harg
  · rw [resolveArg_of_ne fun name hne => hname ⟨name, hne⟩]
    exact hinner .value henv harg

omit hmemory hq hgrows in
theorem answers_enterDeclared {site : Site} (hsite : site.IsWritten q) {args : List Ty}
    (hargs : ∀ t ∈ args, t.IsWritten q) : Answers memory (enterDeclared inner env site args) (·.IsWritten q) := by
  have hinside := henv.inside hsite hargs
  have hname : IsTypeText (showName q site.typeName).toList := hsite.label _ hsite.decl.name
  unfold enterDeclared
  split
  · split
    · exact .stop
    · exact hinner .value ⟨hinside.file, hinside.package, hinside.label, hinside.arguments⟩ hsite.decl.type
  · split
    · exact .give (.unseen hname)
    · refine .map (hinner .value ?_ hsite.decl.type) fun t ht => .named hname hargs ht
      exact ⟨hinside.file, hinside.package, hinside.label, hinside.arguments⟩

theorem answers_resolveDeclared {site : Site} (hsite : site.IsWritten q) {args : List TypeExpr}
    (hargs : ∀ a ∈ args, a.IsWritten) : Answers memory (resolveDeclared tree inner env site args) (·.IsWritten q) := by
  rw [resolveDeclared_eq]
  exact .bind (.forEach (grows_resolveArg hgrows env) args hargs fun _ =>
      answers_resolveArg hmemory hq hgrows hinner henv)
    (grows_enterDeclared hgrows env site) fun _ => answers_enterDeclared hinner henv hsite

theorem answers_resolvePlain {name : String} (hname : IsIdentifier name.toList) {args : List TypeExpr}
    (hargs : ∀ a ∈ args, a.IsWritten) (mode : Mode) :
    Answers memory (resolvePlain tree inner env name args mode) (·.IsWritten q) := by
  rw [resolvePlain_eq]
  refine .bind (Env.answers_lookup hmemory hq henv name) (grows_resolveFound hgrows env name args mode)
    fun found hfound => ?_
  unfold resolveFound
  split
  · exact .give (hfound _ rfl)
  · next site =>
    have hsite : site.IsWritten q := hfound _ rfl
    split
    · exact answers_spell hgrows hinner henv (hsite.label name hname) hargs
    · exact answers_resolveDeclared hmemory hq hgrows hinner henv hsite hargs
  · split
    · exact .stop
    · exact answers_spell hgrows hinner henv (henv.label name hname) hargs

theorem answers_resolveQualified {qualifier : String} (hqualifier : IsIdentifier qualifier.toList) {name : String}
    (hname : IsIdentifier name.toList) {args : List TypeExpr} (hargs : ∀ a ∈ args, a.IsWritten) (mode : Mode) :
    Answers memory (resolveQualified tree inner env qualifier name args mode) (·.IsWritten q) := by
  rw [resolveQualified_eq]
  refine .bind (Env.answers_importNamed hmemory henv.file qualifier)
    (grows_resolveImported hgrows env qualifier name args mode) fun imported himported => ?_
  unfold resolveImported
  split
  · refine .give (.primitive fun _ => ?_)
    have hunsafe : IsIdentifier "unsafe".toList := ⟨⟨_, _, rfl, rfl, List.all_eq_true.mp rfl⟩, rfl⟩
    exact hq.imported hunsafe "Pointer" ⟨⟨_, _, rfl, rfl, List.all_eq_true.mp rfl⟩, rfl⟩
  · split
    · refine answers_spell hgrows hinner henv (hq.imported ?_ name hname) hargs
      cases imported with
      | none => exact hqualifier
      | some i => exact himported i rfl
    · refine .bind (answers_importedSite hmemory hq name imported) (grows_resolveSite hgrows env _ args mode)
        fun site hsite => ?_
      cases site with
      | some site => exact answers_resolveDeclared hmemory hq hgrows hinner henv (hsite site rfl) hargs
      | none =>
        unfold resolveSite
        dsimp only
        split
        · exact .stop
        · exact answers_spell hgrows hinner henv (hq.imported hqualifier name hname) hargs

theorem answers_resolveForm {type : TypeExpr} (htype : type.IsWritten) (mode : Mode) :
    Answers memory (resolveForm tree inner env type mode) (·.IsWritten q) := by
  cases htype with
  | @name qualifier name args hqualifier hname hargs =>
    cases qualifier with
    | none => exact answers_resolvePlain hmemory hq hgrows hinner henv hname hargs mode
    | some qualifier =>
      exact answers_resolveQualified hmemory hq hgrows hinner henv (hqualifier _ rfl) hname hargs mode
  | pointer ht => exact .map (hinner .spelled henv ht) fun _ => .pointer
  | slice ht => exact .map (hinner .spelled henv ht) fun _ => .slice
  | array hl ht => exact .map (hinner mode.inner henv ht) fun _ => .array (env.isWritten_arrayLength hl)
  | map hk hv =>
    exact .bind (hinner .spelled henv hk) (fun _ => .bind (hgrows ..) fun _ => .give _) fun _ hk =>
      .map (hinner .spelled henv hv) fun _ => .map hk
  | chan ht => exact .map (hinner .spelled henv ht) fun _ => .chan
  | func h => exact .give (.func h)
  | interface h => exact .give (.interface h)
  | @struct decls hnames htypes htags =>
    refine .map (.forEach (fun _ => hgrows ..) decls htypes fun d hd => hinner mode.inner henv hd) fun types ht => ?_
    have hfields : ∀ f ∈ (decls.zip types).flatMap fun e => fieldsOf e.1 e.2,
        IsIdentifier f.name.toList ∧ f.type.IsWritten q ∧ ∀ tag ∈ f.tag, IsInner tag.toList := by
      intro f hf
      obtain ⟨⟨d, t⟩, hmem, hf⟩ := List.mem_flatMap.mp hf
      obtain ⟨hd, htmem⟩ := List.of_mem_zip hmem
      exact fieldsOf_isWritten (hnames d hd) (htypes d hd) (htags d hd) (ht t htmem) f hf
    exact .struct (fun f hf => (hfields f hf).1) (fun f hf => (hfields f hf).2.1) fun f hf => (hfields f hf).2.2

omit hgrows hinner henv in
/-- Every type that is found can be written. -/
theorem answers_resolveWithin (depth : Nat) {env : Env} {type : TypeExpr} (mode : Mode) (henv : env.IsWritten q)
    (htype : type.IsWritten) : Answers memory (resolveWithin tree depth env type mode) (·.IsWritten q) := by
  induction depth generalizing env type mode with
  | zero => exact .stop
  | succ depth ih =>
    exact answers_resolveForm hmemory hq (grows_resolveWithin tree depth) (fun mode => ih mode) henv htype mode

end

/-! ## The struct before a literal -/

namespace SourceFile

variable {f : SourceFile} (h : f.IsWritten)

omit h in
/-- A file calls its own types by their names alone. -/
theorem names_own (f : SourceFile) {packagePath path package : String} (hown : path = "" ∨ path = packagePath) :
    (f.qualifier packagePath).Names path package := by
  intro name hname
  have hforeign : TypeName.isForeignTo packagePath ⟨path, package, name⟩ = false := by
    rcases hown with rfl | rfl <;> simp [TypeName.isForeignTo, TypeName.isPredeclared]
  simpa [showName, qualifier, hforeign] using .of_identifier hname

include h

/-- What an import binds for a package with a name is a name. -/
theorem IsWritten.boundName {i : ImportSpec} (hi : i ∈ f.imports) {n : TypeName} (hn : IsIdentifier n.package.toList)
    {name : String} (hname : boundName i n = some name) : IsIdentifier name.toList := by
  have halias := (h.imports i hi).1
  unfold ImportSpec.IsWritten at halias
  unfold SourceFile.boundName ImportSpec.localName at hname
  cases hbound : i.alias? with
  | none =>
    rw [hbound] at hname
    cases hname
    exact hn
  | some bound =>
    simp only [hbound] at hname
    split at hname
    · cases hname
    · cases hname
    · next hdot heq =>
      cases hname
      cases heq
      exact (halias _ hbound).resolve_left hdot
    · next heq => cases heq

/-- A file can name the types of packages with names. -/
theorem IsWritten.names (packagePath : String) : (f.qualifier packagePath).NamesAll := by
  refine ⟨fun {path package} hpackage name hname => ?_, f.names_own (.inl rfl)⟩
  have halone : IsTypeText name.toList := .of_identifier hname
  unfold showName qualifier
  dsimp only
  split
  · next found hfound =>
    have hfound' : IsIdentifier found.toList := by
      split at hfound
      · cases hfound
      · split at hfound
        · cases hfound
        · cases hfound
          cases hbound : (f.imports.filter fun i => i.path == path).findSome? fun i =>
              SourceFile.boundName i ⟨path, package, name⟩ with
          | none => exact hpackage
          | some bound =>
            obtain ⟨i, hi, hbound⟩ := List.exists_of_findSome?_eq_some hbound
            exact h.boundName (List.mem_of_mem_filter hi) hpackage hbound
    simpa using IsTypeText.qualified hfound' hname
  · exact halone

end SourceFile

/-- The packages that are remembered hold files that are readable. Those that files import have names: the ones that
package clauses give them, or identifiers. -/
structure PackageDb.IsReadable (memory : PackageDb) : Prop where
  files {p : Package} (h : (∃ path, memory.byPath.lookup path = some (some p)) ∨
    ∃ dir, memory.seenDir dir = some (some p)) : ∀ f ∈ p.files, f.source.IsReadable
  named {path : String} {p : Package} (h : memory.byPath.lookup path = some (some p)) :
    (∃ f ∈ p.files, f.source.package = some p.name) ∨ IsIdentifier p.name.toList

theorem PackageDb.IsReadable.isWritten {memory : PackageDb} (h : memory.IsReadable) : memory.IsWritten := by
  refine ⟨fun {path p} hp => ?_⟩
  have hfiles := h.files (.inl ⟨path, hp⟩)
  refine ⟨fun f hf => (hfiles f hf).isWritten, ?_⟩
  rcases h.named hp with ⟨f, hf, hname⟩ | hname
  · exact (hfiles f hf).isWritten.package _ hname
  · exact hname

theorem Ty.IsWritten.underlying {q : Qualifier} {t : Ty} (h : t.IsWritten q) : t.underlying.IsWritten q := by
  induction h with
  | named hn hargs ht _ iht => rwa [Ty.underlying]
  | primitive h => exact .primitive h
  | unseen hn => exact .unseen hn
  | pointer ht => exact .pointer ht
  | slice ht => exact .slice ht
  | array hl ht => exact .array hl ht
  | map hk hv => exact .map hk hv
  | chan ht => exact .chan ht
  | struct hnames htypes htags => exact .struct hnames htypes htags
  | interface h => exact .interface h
  | func h => exact .func h
  | param h => exact .param h

/-- The fields of the struct before a literal can be written in its file. -/
theorem answers_resolveStruct {tree : FileTree} {memory : PackageDb} (hmemory : memory.IsReadable) {scope : Scope}
    (hfile : scope.file.IsReadable) {type : TypeExpr} (htype : type.IsWritten) :
    Answers memory (resolveStruct tree scope type) (·.IsWritten (scope.file.qualifier scope.packagePath)) := by
  have hwritten := hfile.isWritten
  have hq := hwritten.names scope.packagePath
  rw [resolveStruct_eq]
  have hbeside : Answers memory (packageBeside tree scope) fun package => ∀ p ∈ package, p.IsWritten := by
    unfold packageBeside
    split
    · refine ⟨fun {s s' package} h hw p hp => ?_⟩
      obtain ⟨-, s₁, -, hload⟩ := Resolution.bind_ok h
      obtain ⟨hpackage, rfl⟩ := Prod.mk.inj hload
      have hseen := hw.byDir (PackageDb.readDir_remembered ..)
      have hp' := hseen.trans (congrArg some ((Except.ok.inj hpackage).trans hp))
      exact fun f hf => (hmemory.files (.inr ⟨_, hp'⟩) f hf).isWritten
    · exact .give nofun
  refine hbeside.bind (fun package => .bind (grows_resolveWithin ..) (grows_structOf scope)) fun package hpackage => ?_
  have henv : (scope.env package).IsWritten (scope.file.qualifier scope.packagePath) :=
    ⟨hwritten, hpackage, scope.file.names_own (.inr rfl), by simp [Scope.env]⟩
  refine .bind (answers_resolveWithin hmemory.isWritten hq _ .root henv htype) (grows_structOf scope) fun t ht => ?_
  unfold structOf
  split
  · next r hr =>
    obtain ⟨fields, hfields, rfl⟩ := Option.map_eq_some_iff.mp hr
    have hunder := ht.underlying
    unfold Ty.structFields at hfields
    split at hfields
    · next hstruct =>
      cases hfields
      rw [hstruct] at hunder
      cases hunder with
      | struct hnames htypes _ => exact .give ⟨hnames, htypes⟩
    · cases hfields
  · exact .stop

end LiteralFill
